import ScopedLisp.Proofs.Reader.Ahead
import ScopedLisp.Proofs.Reader.Grammar

namespace ScopedLisp

open Datum

namespace Reader

/-- What a reader does after a token. -/
def goOn (r : Reader) : Progress → Except ReadError Value × Reader
  | .done v => (.ok v, r)
  | .within frames => r.readWithin frames

variable {r r' : Reader} {frames : List Frame} {us : List Token}

theorem readWithin_eq {p : Progress} (hp : Progress.ofToken frames r.lookahead.item = .ok p)
    (h : r.advance = (.ok (), r')) : r.readWithin frames = r'.goOn p := by
  rw [readWithin]
  split
  · next hp' =>
    rw [hp] at hp'
    cases hp'
  · next hp' =>
    rw [hp] at hp'
    cases hp'
    split
    · next h' =>
      rw [h] at h'
      cases h'
    · next h' =>
      rw [h] at h'
      cases h'
      cases p <;> rfl

theorem Ahead.step {t : Token} (h : r.Ahead (t :: us)) (frames : List Frame) {p : Progress}
    (hp : Progress.ofToken frames t = .ok p) :
    ∃ r' : Reader, r'.Ahead us ∧ r.readWithin frames = r'.goOn p := by
  have ht : t ≠ .endOfInput := fun ht => Progress.ofToken_endOfInput frames p (ht ▸ hp)
  obtain ⟨r', hadvance, hahead⟩ := h.advance ht
  rw [← h.lookahead] at hp
  exact ⟨r', hahead, readWithin_eq hp hadvance⟩

theorem reading_symbol (name : String) :
    (Datum.symbol name).reading = some (Progress.ofSymbol name) := by
  unfold reading Progress.ofSymbol
  split <;> simp_all

mutual

/-- The tokens of a datum come to handing its value to the open frames. -/
theorem Ahead.datum : ∀ (d : Datum) (frames : List Frame) {v : Value} {r : Reader}
    {us : List Token}, r.Ahead (d.tokens ++ us) → d.reading = some v →
      ∃ r' : Reader, r'.Ahead us ∧ r.readWithin frames = r'.goOn (.ofValue frames v)
  | .number lexeme, frames, v, r, us, h, hv => by
    obtain ⟨n, hn, rfl⟩ := Option.map_eq_some_iff.1 hv
    have htoken : Progress.ofToken frames (.number lexeme) =
        .ok (.ofValue frames (.number n.value)) := by
      rw [Progress.ofToken, hn]
    exact Ahead.step h frames htoken
  | .string content, frames, v, r, us, h, hv => by
    cases hv
    exact Ahead.step h frames rfl
  | .symbol name, frames, v, r, us, h, hv => by
    rw [reading_symbol] at hv
    cases hv
    exact Ahead.step h frames rfl
  | .quoted d, frames, v, r, us, h, hv => by
    obtain ⟨w, hw, rfl⟩ := Option.map_eq_some_iff.1 hv
    obtain ⟨r₁, hahead₁, hmark⟩ := Ahead.step h frames rfl
    obtain ⟨r₂, hahead₂, hquoted⟩ := Ahead.datum d (.quoted :: frames) hahead₁ hw
    exact ⟨r₂, hahead₂, hmark.trans hquoted⟩
  | .list ds, frames, v, r, us, h, hv => by
    obtain ⟨vs, hvs, rfl⟩ := Option.map_eq_some_iff.1 hv
    rw [Datum.tokens, List.cons_append, List.append_assoc] at h
    obtain ⟨r₁, hahead₁, hopen⟩ := Ahead.step h frames rfl
    obtain ⟨r₂, hahead₂, hitems⟩ := Ahead.data ds [] frames hahead₁ hvs
    obtain ⟨r₃, hahead₃, hclose⟩ := Ahead.step hahead₂ (.list (vs.reverse ++ []) :: frames) rfl
    refine ⟨r₃, hahead₃, (hopen.trans hitems).trans (hclose.trans ?_)⟩
    rw [List.append_nil, List.reverse_reverse]

theorem Ahead.data : ∀ (ds : List Datum) (items : List Value) (frames : List Frame)
    {vs : List Value} {r : Reader} {us : List Token}, r.Ahead (allTokens ds ++ us) →
      allReadings ds = some vs → ∃ r' : Reader, r'.Ahead us ∧
        r.readWithin (.list items :: frames) = r'.readWithin (.list (vs.reverse ++ items) :: frames)
  | [], items, frames, vs, r, us, h, hvs => by
    cases hvs
    exact ⟨r, h, rfl⟩
  | d :: ds, items, frames, vs, r, us, h, hvs => by
    obtain ⟨v, ws, hv, hws, rfl⟩ := allReadings_cons_eq_some_iff.1 hvs
    rw [allTokens, List.append_assoc] at h
    obtain ⟨r₁, hahead₁, hfirst⟩ := Ahead.datum d (.list items :: frames) h hv
    obtain ⟨r₂, hahead₂, hrest⟩ := Ahead.data ds (v :: items) frames hahead₁ hws
    refine ⟨r₂, hahead₂, hfirst.trans (hrest.trans ?_)⟩
    rw [List.reverse_cons, List.append_assoc]
    rfl

end

theorem atEnd_of_ahead (h : r.Ahead [.endOfInput]) : r.atEnd := r.atEnd_iff.2 h.lookahead

/-- A reader with data ahead, and then the end, reads them. -/
theorem Ahead.readAllAfter {ds : List Datum} {vs : List Value}
    (h : r.Ahead (allTokens ds ++ [.endOfInput])) (hvs : allReadings ds = some vs)
    (done : List Value) : (r.readAllAfter done).1 = .ok (done.reverse ++ vs) := by
  induction ds generalizing r done vs with
  | nil =>
    cases hvs
    rw [Reader.readAllAfter, if_pos (atEnd_of_ahead h), List.append_nil]
  | cons d ds ih =>
    obtain ⟨v, ws, hv, hws, rfl⟩ := allReadings_cons_eq_some_iff.1 hvs
    rw [allTokens, List.append_assoc] at h
    have hend : ¬ r.atEnd := by
      obtain ⟨t, more, htokens, -, ht⟩ := d.tokens_eq_cons
      rw [htokens] at h
      exact fun hend => ht (h.lookahead.symm.trans (r.atEnd_iff.1 hend))
    obtain ⟨r₁, hahead, hread⟩ := h.datum d [] hv
    rw [Reader.readAllAfter, if_neg hend]
    split
    · next hread' =>
      rw [Reader.read, hread] at hread'
      cases hread'
    · next hread' =>
      rw [Reader.read, hread] at hread'
      cases hread'
      rw [ih hahead hws (v :: done), List.reverse_cons, List.append_assoc]
      rfl

/-- With the value `w` handed to them, the open frames ask for the tokens `us` and then make up the
value `v`. -/
def Closes : List Frame → Value → List Token → Value → Prop
  | [], w, us, v => us = [] ∧ v = w
  | .quoted :: frames, w, us, v => Closes frames (Progress.quote w) us v
  | .list items :: frames, w, us, v => ∃ ds ws us', allReadings ds = some ws ∧
      us = allTokens ds ++ .rightParen :: us' ∧
      Closes frames (.list (items.reverse ++ w :: ws)) us' v

/-- The open frames ask for the tokens `us` and then make up the value `v`. -/
def Completes : List Frame → List Token → Value → Prop
  | .list items :: frames, us, v => ∃ ds ws us', allReadings ds = some ws ∧
      us = allTokens ds ++ .rightParen :: us' ∧ Closes frames (.list (items.reverse ++ ws)) us' v
  | frames, us, v => ∃ (d : Datum) (w : Value) (us' : List Token),
      d.reading = some w ∧ us = d.tokens ++ us' ∧ Closes frames w us' v

/-- A datum is what open frames ask for first, if not for their end. -/
theorem completes_of_datum {d : Datum} {w v : Value} (hw : d.reading = some w)
    (h : Closes frames w us v) : Completes frames (d.tokens ++ us) v := by
  match frames with
  | [] => exact ⟨d, w, us, hw, rfl, h⟩
  | .quoted :: frames => exact ⟨d, w, us, hw, rfl, h⟩
  | .list items :: frames =>
    obtain ⟨ds, ws, us', hws, rfl, hclose⟩ := h
    have hdata : allReadings (d :: ds) = some (w :: ws) :=
      allReadings_cons_eq_some_iff.2 ⟨w, ws, hw, hws, rfl⟩
    refine ⟨d :: ds, w :: ws, us', hdata, ?_, hclose⟩
    rw [allTokens, List.append_assoc]

/-- What is asked for after a token. -/
def AsksFor : Progress → List Token → Value → Prop
  | .done w, us, v => us = [] ∧ v = w
  | .within frames, us, v => Completes frames us v

theorem closes_of_asksFor_ofValue {w v : Value}
    (h : AsksFor (.ofValue frames w) us v) : Closes frames w us v := by
  induction frames generalizing w with
  | nil => exact h
  | cons frame frames ih =>
    cases frame with
    | quoted => exact ih h
    | list items =>
      obtain ⟨ds, ws, us', hws, hus, hclose⟩ := h
      refine ⟨ds, ws, us', hws, hus, ?_⟩
      rwa [List.reverse_cons, List.append_assoc] at hclose

/-- Whatever a token makes the frames ask for next, it was what they asked for first. -/
theorem completes_of_asksFor {t : Token} {p : Progress} {v : Value}
    (hp : Progress.ofToken frames t = .ok p) (h : AsksFor p us v) :
    Completes frames (t :: us) v := by
  cases t with
  | leftParen =>
    cases hp
    obtain ⟨ds, ws, us', hws, rfl, hclose⟩ := h
    have hlist : (Datum.list ds).reading = some (.list ws) := by rw [reading, hws]; rfl
    have hcompletes := completes_of_datum hlist hclose
    simpa [Datum.tokens] using hcompletes
  | quote =>
    cases hp
    obtain ⟨d, w, us', hw, rfl, hclose⟩ := h
    have hquoted : (Datum.quoted d).reading = some (Progress.quote w) := by rw [reading, hw]; rfl
    exact completes_of_datum hquoted hclose
  | number lexeme =>
    rw [Progress.ofToken] at hp
    cases hn : Numeral.ofChars? lexeme.toList with
    | none =>
      rw [hn] at hp
      cases hp
    | some n =>
      rw [hn] at hp
      cases hp
      have hnumber : (Datum.number lexeme).reading = some (.number n.value) := by
        rw [reading, hn]
        rfl
      exact completes_of_datum hnumber (closes_of_asksFor_ofValue h)
  | string content =>
    cases hp
    have hstring : (Datum.string content).reading = some (.string content) := rfl
    exact completes_of_datum hstring (closes_of_asksFor_ofValue h)
  | symbol name =>
    cases hp
    exact completes_of_datum (reading_symbol name) (closes_of_asksFor_ofValue h)
  | rightParen =>
    match frames with
    | .list items :: outer =>
      cases hp
      have hclose := closes_of_asksFor_ofValue h
      rw [← List.append_nil items.reverse] at hclose
      exact ⟨[], [], us, rfl, rfl, hclose⟩
    | [] => cases hp
    | .quoted :: _ => cases hp
  | endOfInput => exact absurd hp (Progress.ofToken_endOfInput frames p)

/-- A reading takes tokens away that its frames ask for. -/
theorem completes_of_readWithin {v : Value} (h : r.readWithin frames = (.ok v, r')) :
    ∃ us, Completes frames us v ∧ ∀ rest, r'.Ahead rest → r.Ahead (us ++ rest) := by
  fun_induction readWithin frames r with
  | case1 => cases h
  | case2 => cases h
  | case3 frames r r₁ ha w hp =>
    cases h
    refine ⟨[r.lookahead.item], completes_of_asksFor hp ⟨rfl, rfl⟩, fun rest hrest => ?_⟩
    exact (ahead_cons_iff ha (lookahead_ne_endOfInput hp)).2 hrest
  | case4 frames r r₁ ha frames' hp hlt hp' ih =>
    obtain ⟨us, hcompletes, hrest⟩ := ih h
    refine ⟨r.lookahead.item :: us, completes_of_asksFor hp hcompletes, fun rest hahead => ?_⟩
    exact (ahead_cons_iff ha (lookahead_ne_endOfInput hp)).2 (hrest rest hahead)

theorem datum_of_read {v : Value} (h : r.read = (.ok v, r')) :
    ∃ d : Datum, d.reading = some v ∧ ∀ rest, r'.Ahead rest → r.Ahead (d.tokens ++ rest) := by
  obtain ⟨us, ⟨d, w, us', hw, rfl, rfl, rfl⟩, hrest⟩ := completes_of_readWithin h
  rw [List.append_nil] at hrest
  exact ⟨d, hw, hrest⟩

/-- A reader that reads to the end has data ahead. -/
theorem data_of_readAllAfter {done vs : List Value} (h : r.readAllAfter done = (.ok vs, r')) :
    ∃ ds ws, allReadings ds = some ws ∧ vs = done.reverse ++ ws ∧
      r.Ahead (allTokens ds ++ [.endOfInput]) := by
  fun_induction readAllAfter done r with
  | case1 done r hend =>
    cases h
    exact ⟨[], [], rfl, (List.append_nil _).symm, ahead_end hend⟩
  | case2 => cases h
  | case3 done r hend v r₁ hread hlt ih =>
    obtain ⟨d, hv, hfirst⟩ := datum_of_read hread
    obtain ⟨ds, ws, hws, rfl, hahead⟩ := ih h
    refine ⟨d :: ds, v :: ws, allReadings_cons_eq_some_iff.2 ⟨v, ws, hv, hws, rfl⟩, ?_, ?_⟩
    · rw [List.reverse_cons, List.append_assoc]
      rfl
    · rw [allTokens, List.append_assoc]
      exact hfirst _ hahead

end Reader

/-- The text has been cut into tokens, and those are the tokens of data and then the end. -/
def Derives (source : String) (ds : List Datum) : Prop :=
  ∃ ts, (Scanner.ofString source).tokens = .ok ts ∧
    ts.map (·.item) = allTokens ds ++ [.endOfInput]

theorem readAll_eq_ok_iff (source : String) (vs : List Value) :
    readAll source = .ok vs ↔ ∃ ds, Derives source ds ∧ allReadings ds = some vs := by
  unfold readAll Derives
  cases hr : Reader.ofString source with
  | error e =>
    obtain ⟨e', he'⟩ := Reader.ofString_error hr
    constructor
    · intro h
      cases h
    · intro h
      obtain ⟨ds, ⟨ts, hts, -⟩, -⟩ := h
      rw [he'] at hts
      cases hts
  | ok r =>
    constructor
    · intro h
      have hread : r.readAllAfter [] = (.ok vs, (r.readAllAfter []).2) := Prod.ext h rfl
      obtain ⟨ds, ws, hws, rfl, hahead⟩ := Reader.data_of_readAllAfter hread
      exact ⟨ds, (Reader.ofString_ahead_iff hr).1 hahead, hws⟩
    · intro h
      obtain ⟨ds, hderives, hvs⟩ := h
      have hahead := (Reader.ofString_ahead_iff hr).2 hderives
      exact hahead.readAllAfter hvs []

end ScopedLisp
