import ScopedLisp.Proofs.Reader.Acceptance
import ScopedLisp.Proofs.Token.Writing

namespace ScopedLisp

open Datum

namespace Token

/-- So many lists are open behind a token, if there are `depth` in front of it. -/
def nest (depth : Nat) : Token → Nat
  | leftParen => depth + 1
  | rightParen => depth - 1
  | _ => depth

end Token

/-- How many lists are open behind the tokens. -/
def openLists (us : List Token) : Nat := us.foldl Token.nest 0

/-- The tokens are the first ones of some text that can be read. -/
def BeginsReadable (us : List Token) : Prop :=
  ∃ text vs ts, readAll text = .ok vs ∧ (Scanner.ofString text).tokens = .ok ts ∧
    us <+: ts.map (·.item)

namespace Datum

theorem allTokens_append (ds ds' : List Datum) :
    allTokens (ds ++ ds') = allTokens ds ++ allTokens ds' := by
  induction ds with
  | nil => rfl
  | cons d ds ih => rw [List.cons_append, allTokens, allTokens, ih, List.append_assoc]

theorem allReadings_append {ds ds' : List Datum} {vs vs' : List Value}
    (h : allReadings ds = some vs) (h' : allReadings ds' = some vs') :
    allReadings (ds ++ ds') = some (vs ++ vs') := by
  induction ds generalizing vs with
  | nil =>
    cases h
    exact h'
  | cons d ds ih =>
    obtain ⟨v, ws, hv, hws, rfl⟩ := allReadings_cons_eq_some_iff.1 h
    exact allReadings_cons_eq_some_iff.2 ⟨v, ws ++ vs', hv, ih hws, rfl⟩

end Datum

/-- How many of the frames are lists. -/
def listsAmong : List Frame → Nat
  | [] => 0
  | .list _ :: frames => listsAmong frames + 1
  | .quoted :: frames => listsAmong frames

namespace Progress

/-- The frames that are open. -/
def frames : Progress → List Frame
  | done _ => []
  | within frames => frames

/-- What a token does in open frames: it opens one, is a value, or closes the innermost list. -/
inductive Acts : List Frame → Token → Progress → Prop
  | opensList (frames : List Frame) : Acts frames .leftParen (within (.list [] :: frames))
  | opensQuote (frames : List Frame) : Acts frames .quote (within (.quoted :: frames))
  | isValue {t : Token} (ht : t ∉ [.leftParen, .rightParen, .quote]) (frames : List Frame)
      (v : Value) : Acts frames t (ofValue frames v)
  | closesList (items : List Value) (outer : List Frame) :
    Acts (.list items :: outer) .rightParen (ofValue outer (.list items.reverse))

variable {frames outer : List Frame} {t : Token} {p : Progress}

theorem acts_of_ofToken (h : ofToken frames t = .ok p) : Acts frames t p := by
  cases t with
  | leftParen =>
    cases h
    exact .opensList frames
  | quote =>
    cases h
    exact .opensQuote frames
  | number lexeme =>
    rw [ofToken] at h
    split at h
    · cases h
      exact .isValue (by simp) frames _
    · cases h
  | string | symbol =>
    cases h
    exact .isValue (by simp) frames _
  | rightParen =>
    match frames with
    | .list items :: outer =>
      cases h
      exact .closesList items outer
    | [] => cases h
    | .quoted :: _ => cases h
  | endOfInput => exact absurd h (ofToken_endOfInput frames p)

/-- A value opens and closes no list. -/
theorem listsAmong_ofValue (frames : List Frame) (v : Value) :
    listsAmong (ofValue frames v).frames = listsAmong frames := by
  induction frames generalizing v with
  | nil => rfl
  | cons frame frames ih =>
    cases frame with
    | list items => rfl
    | quoted => exact ih (quote v)

/-- No quote mark stays open behind its value. -/
theorem frames_ofValue_ne_quoted (frames : List Frame) (v : Value) (outer : List Frame) :
    (ofValue frames v).frames ≠ .quoted :: outer := by
  induction frames generalizing v with
  | nil => simp [ofValue, Progress.frames]
  | cons frame frames ih =>
    cases frame with
    | list items => simp [ofValue, Progress.frames]
    | quoted => exact ih (quote v)

theorem listsAmong_ofToken (h : ofToken frames t = .ok p) :
    listsAmong p.frames = t.nest (listsAmong frames) := by
  cases acts_of_ofToken h with
  | opensList | opensQuote => rfl
  | isValue ht frames v =>
    rw [listsAmong_ofValue]
    cases t <;> simp_all [Token.nest]
  | closesList items outer =>
    rw [listsAmong_ofValue]
    rfl

/-- Only behind a quote mark is the innermost frame that of one. -/
theorem eq_quote_of_frames (h : ofToken frames t = .ok p) (hp : p.frames = .quoted :: outer) :
    t = .quote := by
  cases acts_of_ofToken h with
  | opensQuote => rfl
  | opensList => cases hp
  | isValue | closesList => exact absurd hp (frames_ofValue_ne_quoted _ _ outer)

end Progress

/-- Value after value, the reader can go through the tokens, and these frames are open then. -/
inductive Opens : List Token → List Frame → Prop
  | start : Opens [] []
  | token {us : List Token} {frames : List Frame} {t : Token} {p : Progress}
      (h : Opens us frames) (hp : Progress.ofToken frames t = .ok p) : Opens (us ++ [t]) p.frames

namespace Reader

/-- With a value handed to them, all that open frames ask for is closing parentheses. -/
theorem exists_closes (frames : List Frame) (w : Value) :
    ∃ us v, Closes frames w us v ∧ ∀ t ∈ us, t.IsProper := by
  induction frames generalizing w with
  | nil => exact ⟨[], w, ⟨rfl, rfl⟩, nofun⟩
  | cons frame frames ih =>
    cases frame with
    | quoted => exact ih (Progress.quote w)
    | list items =>
      obtain ⟨us, v, hcloses, hus⟩ := ih (.list (items.reverse ++ [w]))
      exact ⟨.rightParen :: us, v, ⟨[], [], us, rfl, rfl, hcloses⟩,
        List.forall_mem_cons.2 ⟨trivial, hus⟩⟩

/-- Whatever is open is completed by an empty list and closing parentheses. -/
theorem exists_completes (frames : List Frame) :
    ∃ us v, Completes frames us v ∧ ∀ t ∈ us, t.IsProper := by
  obtain ⟨us, v, hcloses, hus⟩ := exists_closes frames (.list [])
  have hempty : (Datum.list []).reading = some (.list []) := rfl
  refine ⟨_, v, completes_of_datum hempty hcloses, ?_⟩
  simpa [Datum.tokens, allTokens, Token.IsProper] using hus

end Reader

/-- The token with a blank in front of it. -/
def Spaced.ofToken (t : Token) : Spaced := ⟨[' '], t⟩

/-- Any proper tokens are those of some text. -/
theorem exists_text_of_isProper {us : List Token} (hus : ∀ t ∈ us, t.IsProper) :
    ∃ text ts, (Scanner.ofString text).tokens = .ok ts ∧
      ts.map (·.item) = us ++ [.endOfInput] := by
  have hblank : Blanks [' '] := by decide
  have hproper : ∀ x ∈ us.map Spaced.ofToken, x.IsProper :=
    List.forall_mem_map.2 fun t ht => ⟨hblank, hus t ht⟩
  have hapart : (us.map Spaced.ofToken).IsChain Spaced.Apart := by
    rw [List.isChain_map]
    exact (List.pairwise_of_forall fun _ _ _ _ => List.cons_ne_nil ' ' []).isChain
  have htokens : (us.map Spaced.ofToken).map (·.token) = us := by
    rw [List.map_map]
    exact List.map_id us
  obtain ⟨ts, hts, hitems⟩ := Scanner.tokens_of_spaced
    (s := .ofString (.ofList ((us.map Spaced.ofToken).flatMap Spaced.chars ++ [])))
    hproper hapart blanks_nil String.toList_ofList
  rw [htokens] at hitems
  exact ⟨_, ts, hts, hitems⟩

namespace Opens

variable {us more : List Token} {frames : List Frame}

theorem openLists_eq (h : Opens us frames) : openLists us = listsAmong frames := by
  induction h with
  | start => rfl
  | token h hp ih =>
    rw [Progress.listsAmong_ofToken hp, ← ih, openLists, List.foldl_append]
    rfl

theorem getLast?_eq_quote (h : Opens us (.quoted :: frames)) : us.getLast? = some .quote := by
  generalize hframes : Frame.quoted :: frames = open' at h
  cases h with
  | start => cases hframes
  | token h hp =>
    rw [List.getLast?_concat, Progress.eq_quote_of_frames hp hframes.symm]

/-- What was gone through and what completes it are data. -/
theorem exists_data {v : Value} (h : Opens us frames) (hmore : Reader.Completes frames more v) :
    ∃ ds vs, allReadings ds = some vs ∧ us ++ more = allTokens ds := by
  -- From the last token back: a token and what it asks for is what was asked for in front of it.
  induction h generalizing more v with
  | start =>
    obtain ⟨d, w, us', hw, rfl, rfl, rfl⟩ := hmore
    exact ⟨[d], [v], allReadings_cons_eq_some_iff.2 ⟨v, [], hw, rfl, rfl⟩, rfl⟩
  | @token us frames t p h hp ih =>
    cases p with
    | within frames' =>
      obtain ⟨ds, vs, hvs, htokens⟩ := ih (Reader.completes_of_asksFor hp hmore)
      exact ⟨ds, vs, hvs, by rw [← htokens, List.append_assoc]; rfl⟩
    | done w =>
      -- The token ends a value, and another one is asked for.
      obtain ⟨ds, vs, hvs, htokens⟩ := ih (Reader.completes_of_asksFor hp ⟨rfl, rfl⟩)
      obtain ⟨d, w', us', hw, rfl, rfl, rfl⟩ := hmore
      have hlast : allReadings [d] = some [v] :=
        allReadings_cons_eq_some_iff.2 ⟨v, [], hw, rfl, rfl⟩
      refine ⟨ds ++ [d], vs ++ [v], allReadings_append hvs hlast, ?_⟩
      rw [allTokens_append, ← htokens]
      rfl

/-- What the reader can go through begins a text that can be read. -/
theorem beginsReadable (h : Opens us frames) (hus : ∀ t ∈ us, t.IsProper) : BeginsReadable us := by
  obtain ⟨more, v, hcompletes, hmore⟩ := Reader.exists_completes frames
  obtain ⟨ds, vs, hvs, hdata⟩ := h.exists_data hcompletes
  obtain ⟨text, ts, hts, hitems⟩ := exists_text_of_isProper fun t ht =>
    (List.mem_append.1 ht).elim (hus t) (hmore t)
  have hread : readAll text = .ok vs :=
    (readAll_eq_ok_iff text vs).2 ⟨ds, ⟨ts, hts, by rw [hitems, hdata]⟩, hvs⟩
  refine ⟨text, vs, ts, hread, hts, ?_⟩
  rw [hitems, List.append_assoc]
  exact List.prefix_append us _

end Opens

end ScopedLisp
