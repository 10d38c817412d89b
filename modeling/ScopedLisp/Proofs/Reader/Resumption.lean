import ScopedLisp.Proofs.Reader.Phases

namespace ScopedLisp

open Datum

namespace Scanner

theorem exists_of_mem_outcomes {s : Scanner} {outcome : Except ScanError (Placed Token)}
    {count : Nat} (h : outcome ∈ s.outcomes count) : ∃ s' : Scanner, s'.next.1 = outcome := by
  induction count generalizing s with
  | zero => cases h
  | succ count ih =>
    rcases List.mem_cons.1 h with heq | hmem
    · exact ⟨s, heq.symm⟩
    · exact ih hmem

theorem next_ne_symbol_without_text {s : Scanner} {t : Placed Token} (h : s.next.1 = .ok t) :
    t.item ≠ .symbol "" := by
  intro hitem
  have houtcome := next_outcome_ok h
  rw [hitem] at houtcome
  obtain ⟨hcut, -⟩ := Cut.isOf_of_symbol houtcome
  cases hcut

end Scanner

namespace Datum

theorem mem_tokens_of_reading_symbol {d : Datum} {x : String}
    (h : d.reading = some (.symbol x)) : .symbol x ∈ d.tokens := by
  cases d with
  | number lexeme =>
    obtain ⟨n, -, heq⟩ := Option.map_eq_some_iff.1 h
    cases heq
  | string content => cases h
  | symbol name =>
    have hname : Progress.ofSymbol name = .symbol x :=
      Option.some.inj ((Reader.reading_symbol name).symm.trans h)
    unfold Progress.ofSymbol at hname
    split at hname
    · cases hname
    · split at hname
      · cases hname
      · cases hname
        simp [tokens]
  | quoted d =>
    obtain ⟨w, -, heq⟩ := Option.map_eq_some_iff.1 h
    cases heq
  | list ds =>
    obtain ⟨ws, -, heq⟩ := Option.map_eq_some_iff.1 h
    cases ws <;> cases heq

theorem mem_allTokens_of_reading_symbol {ds : List Datum} {x : String}
    (h : allReadings ds = some [.symbol x]) : .symbol x ∈ allTokens ds := by
  cases ds with
  | nil => cases h
  | cons d ds =>
    obtain ⟨v, ws, hv, -, heq⟩ := allReadings_cons_eq_some_iff.1 h
    obtain ⟨rfl, -⟩ := List.cons.inj heq
    exact List.mem_append_left _ (mem_tokens_of_reading_symbol hv)

end Datum

/-- What a reader can be asked for: the next value, or all values up to the end of the text. -/
inductive Request
  | value
  | values

/-- The values are those of data whose tokens stand side by side among those that the scanner finds
in the text. -/
def Spelled (source : String) (vs : List Value) : Prop :=
  ∃ (ds : List Datum) (ts : List (Placed Token)) (count : Nat), allReadings ds = some vs ∧
    ts.map (·.item) = allTokens ds ∧ ts.map .ok <:+: (Scanner.ofString source).outcomes count

theorem spelled_nil (source : String) : Spelled source [] :=
  ⟨[], [], 0, rfl, rfl, List.nil_infix⟩

/-- No token is a symbol without text, so no text has such a symbol in its data. -/
theorem not_spelled_symbol_without_text (source : String) : ¬ Spelled source [.symbol ""] := by
  intro h
  obtain ⟨ds, ts, count, hvs, hts, hinfix⟩ := h
  have hsymbol : .symbol "" ∈ allTokens ds := mem_allTokens_of_reading_symbol hvs
  rw [← hts] at hsymbol
  obtain ⟨t, ht, hitem⟩ := List.mem_map.1 hsymbol
  have hmem := hinfix.subset (List.mem_map_of_mem ht)
  obtain ⟨s, hs⟩ := Scanner.exists_of_mem_outcomes hmem
  exact Scanner.next_ne_symbol_without_text hs hitem

namespace Reader

def request : Request → Reader → Except ReadError (List Value) × Reader
  | .value, r => (r.read.1.map ([·]), r.read.2)
  | .values, r => r.readAll

/-- The reader after these requests. -/
def after (r : Reader) (qs : List Request) : Reader := qs.foldl (fun r q => (r.request q).2) r

/-- The last of the requests fails because the text ends inside a string. -/
def EndsOpen (r : Reader) (qs : List Request) : Prop :=
  ∃ earlier q e, qs = earlier ++ [q] ∧ ((r.after earlier).request q).1 = .error e ∧ e.IsOpenString

variable {source : String} {before : List (Placed Token)} {r r' : Reader} {e : ReadError}
  {v : Value} {vs done : List Value} {q : Request} {qs : List Request}

theorem after_append (r : Reader) (qs later : List Request) :
    r.after (qs ++ later) = (r.after qs).after later := List.foldl_append

theorem not_endsOpen_nil : ¬ r.EndsOpen [] := by
  intro h
  obtain ⟨earlier, q, e, heq, -⟩ := h
  simp at heq

theorem endsOpen_append_singleton :
    r.EndsOpen (qs ++ [q]) ↔ ∃ e, ((r.after qs).request q).1 = .error e ∧ e.IsOpenString := by
  constructor
  · intro h
    obtain ⟨earlier, q', e, heq, he, hopen⟩ := h
    obtain ⟨rfl, hq⟩ := List.append_inj' heq rfl
    cases hq
    exact ⟨e, he, hopen⟩
  · intro h
    obtain ⟨e, he, hopen⟩ := h
    exact ⟨qs, q, e, rfl, he, hopen⟩

/-- What the tokens just gone through are the data of is spelled in the text. -/
theorem Stands.spelled {ds : List Datum} {us : List (Placed Token)}
    (h : r.Stands source (before ++ us)) (hvs : allReadings ds = some vs)
    (hus : us.map (·.item) = allTokens ds) : Spelled source vs := by
  obtain ⟨s, hgives, -⟩ := h
  refine ⟨ds, us, (before ++ us).length, hvs, hus, ⟨before.map .ok, [], ?_⟩⟩
  have houtcomes := hgives.outcomes 0
  rw [Nat.add_zero] at houtcomes
  rw [houtcomes, List.map_append]
  rfl

theorem Settled.failed_of_readAllAfter (h : r.Settled source)
    (hread : r.readAllAfter done = (.error e, r')) : r'.Failed source e := by
  fun_induction readAllAfter done r with
  | case1 => cases hread
  | case2 done r hend e₁ r₁ hfirst =>
    cases hread
    exact h.failed_of_read hfirst
  | case3 done r hend v r₁ hfirst hlt ih =>
    obtain ⟨before, hstands⟩ := h.stands_of_read hfirst
    obtain ⟨d, us, -, -, hstands₁⟩ := hstands.datum_of_read hfirst
    exact ih (.stands hstands₁) hread

theorem Stands.data_of_readAllAfter (h : r.Stands source before)
    (hread : r.readAllAfter done = (.ok vs, r')) :
    ∃ (ds : List Datum) (us : List (Placed Token)) (ws : List Value), allReadings ds = some ws ∧
      vs = done.reverse ++ ws ∧ us.map (·.item) = allTokens ds ∧
      r'.Stands source (before ++ us) := by
  fun_induction readAllAfter done r generalizing before with
  | case1 done r hend =>
    cases hread
    rw [← List.append_nil before] at h
    exact ⟨[], [], [], rfl, (List.append_nil _).symm, rfl, h⟩
  | case2 => cases hread
  | case3 done r hend v r₁ hfirst hlt ih =>
    obtain ⟨d, us, hv, hus, hstands⟩ := h.datum_of_read hfirst
    obtain ⟨ds, us', ws, hws, hvs, hus', hstands'⟩ := ih hstands hread
    have hdata : allReadings (d :: ds) = some (v :: ws) :=
      allReadings_cons_eq_some_iff.2 ⟨v, ws, hv, hws, rfl⟩
    refine ⟨d :: ds, us ++ us', v :: ws, hdata, ?_, ?_, ?_⟩
    · rw [hvs, List.reverse_cons, List.append_assoc]
      rfl
    · rw [List.map_append, hus, hus', allTokens]
    · rwa [List.append_assoc] at hstands'

theorem request_value_eq_error_iff :
    r.request .value = (.error e, r') ↔ r.read = (.error e, r') := by
  rw [request]
  obtain ⟨outcome, r₁⟩ := r.read
  cases outcome with
  | error e₁ => simp [Except.map]
  | ok v => simp [Except.map]

theorem request_value_eq_ok_iff :
    r.request .value = (.ok vs, r') ↔ ∃ v, r.read = (.ok v, r') ∧ vs = [v] := by
  rw [request]
  obtain ⟨outcome, r₁⟩ := r.read
  cases outcome with
  | error e => simp [Except.map]
  | ok v => simp [Except.map, and_comm, eq_comm]

theorem after_value (r : Reader) (qs : List Request) (h : (r.after qs).read = (.ok v, r')) :
    ((r.after qs).request .value).1 = .ok [v] ∧ r.after (qs ++ [.value]) = r' := by
  have hrequest : (r.after qs).request .value = (.ok [v], r') :=
    request_value_eq_ok_iff.2 ⟨v, h, rfl⟩
  have hafter : r.after (qs ++ [.value]) = ((r.after qs).request .value).2 :=
    after_append r qs [.value]
  rw [hafter, hrequest]
  exact ⟨rfl, rfl⟩

/-- Where no value can be read, all values are none. -/
theorem readAllAfter_of_not_read (hnot : ∀ v r', r.read ≠ (.ok v, r'))
    (hread : r.readAllAfter done = (.ok vs, r')) : r' = r ∧ vs = done.reverse := by
  rw [readAllAfter] at hread
  split at hread
  · cases hread
    exact ⟨rfl, rfl⟩
  · split at hread
    · cases hread
    · next hok => exact absurd hok (hnot _ _)

theorem Settled.spelled_of_readAll (h : r.Settled source) (hread : r.readAll = (.ok vs, r')) :
    Spelled source vs ∧ r'.Settled source := by
  by_cases hfirst : ∃ v r', r.read = (.ok v, r')
  · obtain ⟨v, r₁, hfirst⟩ := hfirst
    obtain ⟨before, hstands⟩ := h.stands_of_read hfirst
    obtain ⟨ds, us, ws, hws, hvs, hus, hstands'⟩ := hstands.data_of_readAllAfter hread
    have hvs : vs = ws := hvs
    exact ⟨hstands'.spelled (hvs ▸ hws) hus, .stands hstands'⟩
  · have hnot : ∀ v r', r.read ≠ (.ok v, r') := fun v r' hok => hfirst ⟨v, r', hok⟩
    obtain ⟨hr, hvs⟩ := readAllAfter_of_not_read hnot hread
    rw [hr, hvs]
    exact ⟨spelled_nil source, h⟩

theorem Settled.failed_of_request (h : r.Settled source)
    (hq : r.request q = (.error e, r')) : r'.Failed source e := by
  cases q with
  | value => exact h.failed_of_read (request_value_eq_error_iff.1 hq)
  | values => exact h.failed_of_readAllAfter hq

theorem Settled.spelled_of_request (h : r.Settled source)
    (hq : r.request q = (.ok vs, r')) : Spelled source vs ∧ r'.Settled source := by
  cases q with
  | value =>
    obtain ⟨v, hread, hvs⟩ := request_value_eq_ok_iff.1 hq
    obtain ⟨before, hstands⟩ := h.stands_of_read hread
    obtain ⟨d, us, hv, hus, hstands'⟩ := hstands.datum_of_read hread
    have hdata : allReadings [d] = some vs :=
      allReadings_cons_eq_some_iff.2 ⟨v, [], hv, rfl, hvs⟩
    have htokens : us.map (·.item) = allTokens [d] := by
      rw [hus, allTokens, allTokens, List.append_nil]
    exact ⟨hstands'.spelled hdata htokens, .stands hstands'⟩
  | values => exact h.spelled_of_readAll hq

theorem IsOver.readAllAfter (h : r.IsOver) (done : List Value) :
    Yields (· = done.reverse) (r.readAllAfter done).1 ∧ (r.readAllAfter done).2.IsOver := by
  obtain ⟨hyields, hover⟩ := h.read (P := fun _ => False)
  rw [Reader.readAllAfter]
  split
  · exact ⟨rfl, h⟩
  · split
    · next hread =>
      rw [hread] at hyields hover
      exact ⟨hyields, hover⟩
    · next hread =>
      rw [hread] at hyields
      exact hyields.elim

theorem IsOver.request (h : r.IsOver) (q : Request) :
    Yields (· = []) (r.request q).1 ∧ (r.request q).2.IsOver := by
  cases q with
  | value =>
    obtain ⟨hyields, hover⟩ := h.read (P := fun _ => False)
    exact ⟨hyields.map fun v hfalse => hfalse.elim, hover⟩
  | values => exact h.readAllAfter []

theorem IsCutShort.request (h : r.IsCutShort) (q : Request) :
    Yields (· ∈ [[.string ""], [.symbol ""]]) (r.request q).1 ∧ (r.request q).2.IsOver := by
  obtain ⟨hyields, hover⟩ := h.read
  have hsingle : ∀ v ∈ [.string "", .symbol ""], [v] ∈ [[.string ""], [Value.symbol ""]] := by
    simp
  cases q with
  | value => exact ⟨hyields.map hsingle, hover⟩
  | values =>
    have hend : ¬ r.atEnd := by
      have hitem := h.2
      intro hend
      rw [r.atEnd_iff.1 hend] at hitem
      simp at hitem
    change Yields _ (r.readAllAfter []).1 ∧ (r.readAllAfter []).2.IsOver
    rw [Reader.readAllAfter, if_neg hend]
    split
    · next hread =>
      rw [hread] at hyields hover
      exact ⟨hyields, hover⟩
    · next v r₁ hread =>
      rw [hread] at hyields hover
      obtain ⟨hvalues, hover'⟩ := IsOver.readAllAfter hover [v]
      refine ⟨hvalues.imp fun vs hvs => ?_, hover'⟩
      rw [hvs]
      exact hsingle v hyields

/-- Where the requests leave a reader is told by the last of them. -/
theorem phase_after (h : Reader.ofString source = .ok r) (qs : List Request) :
    (r.EndsOpen qs → (r.after qs).IsCutShort) ∧
      (¬ r.EndsOpen qs → (r.after qs).Settled source) := by
  induction qs using List.reverseRecOn with
  | nil =>
    have hstands : r.Stands source [] := ⟨_, .nil, ofScanner_eq_ok_iff.1 h⟩
    exact ⟨fun hopen => absurd hopen not_endsOpen_nil, fun _ => .stands hstands⟩
  | append_singleton qs q ih =>
    have hafter : r.after (qs ++ [q]) = ((r.after qs).request q).2 := after_append r qs [q]
    rw [endsOpen_append_singleton, hafter]
    by_cases hopen : r.EndsOpen qs
    · obtain ⟨hyields, hover⟩ := (ih.1 hopen).request q
      refine ⟨?_, fun _ => .finished hover⟩
      intro hagain
      obtain ⟨e, he, hopen'⟩ := hagain
      rw [he] at hyields
      exact absurd hopen' hyields
    -- Only here can the text be found to end inside a string.
    · have hsettled := ih.2 hopen
      cases hq : (r.after qs).request q with
      | mk outcome r' =>
        cases outcome with
        | error e =>
          obtain ⟨hcut, hsettled'⟩ := hsettled.failed_of_request hq
          simpa using ⟨hcut, hsettled'⟩
        | ok vs =>
          obtain ⟨-, hsettled'⟩ := hsettled.spelled_of_request hq
          simpa using hsettled'

theorem IsOver.after (h : r.IsOver) (qs : List Request) : (r.after qs).IsOver := by
  induction qs generalizing r with
  | nil => exact h
  | cons q qs ih => exact ih (h.request q).2

end Reader

/-- Whatever a reader has been asked for before, and however that went, the values that it reads are
spelled in its text, unless the request just before found the text to end inside a string. Then all
that can be read is one string or one symbol without text. -/
theorem reader_goes_on_with_data_of_the_text {source : String} {r : Reader}
    (h : Reader.ofString source = .ok r) (qs : List Request) {q : Request} {vs : List Value}
    (hq : ((r.after qs).request q).1 = .ok vs) :
    (¬ r.EndsOpen qs → Spelled source vs) ∧
      (r.EndsOpen qs → vs = [.string ""] ∨ vs = [.symbol ""]) := by
  obtain ⟨hcut, hsettled⟩ := Reader.phase_after h qs
  constructor
  · intro hopen
    obtain ⟨hspelled, -⟩ := (hsettled hopen).spelled_of_request (Prod.ext hq rfl)
    exact hspelled
  · intro hopen
    obtain ⟨hyields, -⟩ := (hcut hopen).request q
    rw [hq] at hyields
    simpa [Reader.Yields] using hyields

/-- Three values are read before the one that an open string follows. -/
theorem value_before_open_string_is_spelled :
    ∃ r, Reader.ofString "a b c d \"" = .ok r ∧ (r.request .value).1 = .ok [.symbol "a"] ∧
      ((r.after [.value]).request .value).1 = .ok [.symbol "b"] ∧
      ((r.after [.value, .value]).request .value).1 = .ok [.symbol "c"] ∧
      Spelled "a b c d \"" [.symbol "c"] := by
  have hnew : Reader.ofString "a b c d \"" =
      .ok ⟨⟨" b c d \"".toList, ⟨1, 2⟩⟩, ⟨.symbol "a", ⟨1, 1⟩⟩⟩ := rfl
  have hfirst : Reader.read ⟨⟨" b c d \"".toList, ⟨1, 2⟩⟩, ⟨.symbol "a", ⟨1, 1⟩⟩⟩ =
      (.ok (.symbol "a"), ⟨⟨" c d \"".toList, ⟨1, 4⟩⟩, ⟨.symbol "b", ⟨1, 3⟩⟩⟩) :=
    Reader.readWithin_eq (p := .done (.symbol "a")) rfl rfl
  have hsecond : Reader.read ⟨⟨" c d \"".toList, ⟨1, 4⟩⟩, ⟨.symbol "b", ⟨1, 3⟩⟩⟩ =
      (.ok (.symbol "b"), ⟨⟨" d \"".toList, ⟨1, 6⟩⟩, ⟨.symbol "c", ⟨1, 5⟩⟩⟩) :=
    Reader.readWithin_eq (p := .done (.symbol "b")) rfl rfl
  have hthird : Reader.read ⟨⟨" d \"".toList, ⟨1, 6⟩⟩, ⟨.symbol "c", ⟨1, 5⟩⟩⟩ =
      (.ok (.symbol "c"), ⟨⟨" \"".toList, ⟨1, 8⟩⟩, ⟨.symbol "d", ⟨1, 7⟩⟩⟩) :=
    Reader.readWithin_eq (p := .done (.symbol "c")) rfl rfl
  generalize Reader.mk ⟨" b c d \"".toList, ⟨1, 2⟩⟩ _ = r at hnew hfirst
  obtain ⟨ha, hone⟩ := Reader.after_value r [] hfirst
  obtain ⟨hb, htwo⟩ := Reader.after_value r [.value] (hone ▸ hsecond)
  obtain ⟨hc, -⟩ := Reader.after_value r [.value, .value] (htwo ▸ hthird)
  have hclosed : ¬ r.EndsOpen ([.value] ++ [.value]) := by
    rw [Reader.endsOpen_append_singleton, hb]
    rintro ⟨e, ⟨⟩, -⟩
  obtain ⟨hspelled, -⟩ := reader_goes_on_with_data_of_the_text hnew [.value, .value] hc
  exact ⟨r, hnew, ha, hb, hc, hspelled hclosed⟩

/-- The first request takes its text from the symbol, but fails at the string. Then the symbol is
still there. -/
theorem symbol_of_no_token_is_read :
    ∃ r, Reader.ofString "a \"" = .ok r ∧
      (r.request .value).1 = .error ⟨.scan .unterminatedString, ⟨1, 3⟩⟩ ∧
      ((r.after [.value]).request .value).1 = .ok [.symbol ""] ∧
      ¬ Spelled "a \"" [.symbol ""] := by
  have hfirst : Reader.read ⟨⟨[' ', '"'], ⟨1, 2⟩⟩, ⟨.symbol "a", ⟨1, 1⟩⟩⟩ =
      (.error ⟨.scan .unterminatedString, ⟨1, 3⟩⟩, ⟨⟨[], ⟨1, 4⟩⟩, ⟨.symbol "", ⟨1, 1⟩⟩⟩) :=
    Reader.readWithin_of_advance_error (p := .done (.symbol "a")) rfl rfl
  have hsecond : Reader.read ⟨⟨[], ⟨1, 4⟩⟩, ⟨.symbol "", ⟨1, 1⟩⟩⟩ =
      (.ok (.symbol ""), ⟨⟨[], ⟨1, 4⟩⟩, ⟨.endOfInput, ⟨1, 4⟩⟩⟩) :=
    Reader.readWithin_eq (p := .done (.symbol "")) rfl rfl
  have hfails := Reader.request_value_eq_error_iff.2 hfirst
  have hreads := Reader.request_value_eq_ok_iff.2 ⟨_, hsecond, rfl⟩
  have hnew : Reader.ofString "a \"" = .ok ⟨⟨[' ', '"'], ⟨1, 2⟩⟩, ⟨.symbol "a", ⟨1, 1⟩⟩⟩ := rfl
  refine ⟨_, hnew, congrArg Prod.fst hfails, ?_, not_spelled_symbol_without_text _⟩
  change ((Reader.request .value _).2.request .value).1 = _
  rw [hfails, hreads]

/-- What is read after the text was found to end inside a string is the last that is read. -/
theorem nothing_is_read_behind_open_string {source : String} {r : Reader}
    (h : Reader.ofString source = .ok r) {qs : List Request} (hopen : r.EndsOpen qs)
    (q : Request) (later : List Request) {q' : Request} {vs : List Value}
    (hq' : ((r.after (qs ++ q :: later)).request q').1 = .ok vs) : vs = [] := by
  obtain ⟨hcut, -⟩ := Reader.phase_after h qs
  obtain ⟨-, hover⟩ := (hcut hopen).request q
  have hafter : r.after (qs ++ q :: later) = ((r.after qs).request q).2.after later :=
    Reader.after_append r qs (q :: later)
  obtain ⟨hyields, -⟩ := (hover.after later).request q'
  rw [← hafter, hq'] at hyields
  exact hyields

end ScopedLisp
