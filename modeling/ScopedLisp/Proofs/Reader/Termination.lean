import ScopedLisp.Proofs.Reader.Stepwise

namespace ScopedLisp

namespace Scanner

/-- The scanner after so many calls. -/
def afterCalls : Nat → Scanner → Scanner
  | 0, s => s
  | count + 1, s => afterCalls count s.next.2

theorem exists_passes_afterCalls (count : Nat) (s : Scanner) :
    ∃ taken, s.Passes taken (s.afterCalls count) := by
  induction count generalizing s with
  | zero => exact ⟨[], passes_nil s⟩
  | succ count ih =>
    obtain ⟨more, hcalls⟩ := ih s.next.2
    exact ⟨_, s.passes_next.trans hcalls⟩

theorem afterCalls_add (m n : Nat) (s : Scanner) :
    s.afterCalls (m + n) = (s.afterCalls m).afterCalls n := by
  induction m generalizing s with
  | zero => rw [Nat.zero_add, afterCalls]
  | succ m ih => rw [Nat.succ_add, afterCalls, ih, afterCalls]

end Scanner

namespace Reader

/-- Reading on inside `frames` comes to this outcome and this reader, and calls the scanner so many
times. -/
inductive Reads : List Frame → Reader → Except ReadError Value → Reader → Nat → Prop
  | fault {frames : List Frame} {r : Reader} {fault : ReadFault}
    (hp : Progress.ofToken frames r.lookahead.item = .error fault) :
    Reads frames r (.error ⟨fault, r.lookahead.position⟩) r.spend 0
  | stopped {frames : List Frame} {r r' : Reader} {p : Progress} {e : ReadError}
    (hp : Progress.ofToken frames r.lookahead.item = .ok p) (ha : r.advance = (.error e, r')) :
    Reads frames r (.error e) r' 1
  | done {frames : List Frame} {r r' : Reader} {v : Value}
    (hp : Progress.ofToken frames r.lookahead.item = .ok (.done v))
    (ha : r.advance = (.ok (), r')) : Reads frames r (.ok v) r' 1
  | within {frames frames' : List Frame} {r r₁ r' : Reader} {outcome : Except ReadError Value}
    {n : Nat} (hp : Progress.ofToken frames r.lookahead.item = .ok (.within frames'))
    (ha : r.advance = (.ok (), r₁)) (hmore : Reads frames' r₁ outcome r' n) :
    Reads frames r outcome r' (n + 1)

/-- Values are read one after another, to the end or an error, and all that calls the scanner so
many times. -/
inductive ReadsAll : Reader → List Value → Option ReadError → Reader → Nat → Prop
  | atEnd {r : Reader} (h : r.atEnd) : ReadsAll r [] none r 0
  | fails {r r' : Reader} {e : ReadError} {n : Nat} (h : ¬ r.atEnd)
    (hread : Reads [] r (.error e) r' n) : ReadsAll r [] (some e) r' n
  | value {r r₁ r' : Reader} {v : Value} {vs : List Value} {stop : Option ReadError} {m n : Nat}
    (h : ¬ r.atEnd) (hread : Reads [] r (.ok v) r₁ m) (hmore : ReadsAll r₁ vs stop r' n) :
    ReadsAll r (v :: vs) stop r' (m + n)

variable {frames : List Frame} {r r' : Reader} {outcome : Except ReadError Value} {v : Value}
  {vs : List Value} {stop : Option ReadError} {n : Nat}

theorem scanner_advance (r : Reader) : r.advance.2.scanner = r.scanner.next.2 := by
  unfold advance
  split
  · next hs => rw [hs]
  · next hs => rw [hs]

theorem remaining_pos (h : r.lookahead.item ≠ .endOfInput) : 0 < r.remaining := by
  have hend : ¬ r.atEnd := fun hend => h (r.atEnd_iff.1 hend)
  rw [remaining, if_neg hend]
  exact Nat.succ_pos _

theorem remaining_le (r : Reader) : r.remaining ≤ r.scanner.rest.length + 1 := by
  unfold remaining
  split <;> omega

/-- Every reading comes to an end. -/
theorem exists_reads (frames : List Frame) (r : Reader) :
    ∃ outcome r' n, Reads frames r outcome r' n := by
  -- On what is left to read, of which each answered call takes something away.
  fun_induction readWithin frames r with
  | case1 frames r fault hp => exact ⟨_, _, _, .fault hp⟩
  | case2 frames r p hp e r' ha => exact ⟨_, _, _, .stopped hp ha⟩
  | case3 frames r r' ha v hp => exact ⟨_, _, _, .done hp ha⟩
  | case4 frames r r₁ ha frames' hp hlt hp' ih =>
    obtain ⟨outcome, r', n, hmore⟩ := ih
    exact ⟨_, _, _, .within hp ha hmore⟩

theorem Reads.readWithin (h : Reads frames r outcome r' n) :
    r.readWithin frames = (outcome, r') := by
  induction h with
  | fault hp => exact readWithin_of_fault hp
  | stopped hp ha =>
    rw [readWithin_of_advance_error hp (congrArg Prod.fst ha), ha]
  | done hp ha => exact readWithin_eq hp ha
  | within hp ha hmore ih => exact (readWithin_eq hp ha).trans ih

theorem Reads.scanner (h : Reads frames r outcome r' n) :
    r'.scanner = r.scanner.afterCalls n := by
  have hadvance {r r' : Reader} {result : Except ReadError Unit}
      (ha : r.advance = (result, r')) : r'.scanner = r.scanner.next.2 := by
    rw [← scanner_advance, ha]
  induction h with
  | fault hp => rfl
  | stopped hp ha | done hp ha => exact hadvance ha
  | within hp ha hmore ih => rw [ih, hadvance ha, Scanner.afterCalls]

/-- Each call that is answered by a token takes away something that was left to read. -/
theorem Reads.calls_add_remaining_le (h : Reads frames r (.ok v) r' n) :
    n + r'.remaining ≤ r.remaining := by
  generalize hok : (Except.ok v : Except ReadError Value) = outcome at h
  induction h with
  | fault | stopped => cases hok
  | done hp ha =>
    have hlt := advance_remaining_lt ha (lookahead_ne_endOfInput hp)
    omega
  | within hp ha hmore ih =>
    have hlt := advance_remaining_lt ha (lookahead_ne_endOfInput hp)
    have hmore := ih hok
    omega

theorem Reads.calls_le (h : Reads frames r outcome r' n) : n ≤ r.remaining := by
  induction h with
  | fault => exact Nat.zero_le _
  | stopped hp | done hp => exact remaining_pos (lookahead_ne_endOfInput hp)
  | within hp ha hmore ih =>
    have hlt := advance_remaining_lt ha (lookahead_ne_endOfInput hp)
    exact Nat.lt_of_le_of_lt ih hlt

theorem exists_readsAll (r : Reader) : ∃ vs stop r' n, ReadsAll r vs stop r' n := by
  have hreads {r r' : Reader} {outcome : Except ReadError Value} (h : r.read = (outcome, r')) :
      ∃ n, Reads [] r outcome r' n := by
    obtain ⟨_, _, n, hreads⟩ := exists_reads [] r
    cases h.symm.trans hreads.readWithin
    exact ⟨n, hreads⟩
  obtain ⟨vs, stop, r', h⟩ := r.exists_oneByOne
  refine ⟨vs, stop, r', ?_⟩
  induction h with
  | atEnd h => exact ⟨0, .atEnd h⟩
  | fails h hread =>
    obtain ⟨n, hreads⟩ := hreads hread
    exact ⟨n, .fails h hreads⟩
  | value h hread hmore ih =>
    obtain ⟨m, hreads⟩ := hreads hread
    obtain ⟨n, hmore⟩ := ih
    exact ⟨m + n, .value h hreads hmore⟩

theorem ReadsAll.oneByOne (h : ReadsAll r vs stop r' n) : r.OneByOne vs stop r' := by
  induction h with
  | atEnd h => exact .atEnd h
  | fails h hread => exact .fails h hread.readWithin
  | value h hread hmore ih => exact .value h hread.readWithin ih

theorem ReadsAll.scanner (h : ReadsAll r vs stop r' n) : r'.scanner = r.scanner.afterCalls n := by
  induction h with
  | atEnd h => rfl
  | fails h hread => exact hread.scanner
  | value h hread hmore ih => rw [ih, hread.scanner, Scanner.afterCalls_add]

theorem ReadsAll.calls_le (h : ReadsAll r vs stop r' n) : n ≤ r.remaining := by
  induction h with
  | atEnd h => exact Nat.zero_le _
  | fails h hread => exact hread.calls_le
  | value h hread hmore ih =>
    have hfirst := hread.calls_add_remaining_le
    omega

theorem exists_passes_read (r : Reader) : ∃ taken, r.scanner.Passes taken r.read.2.scanner := by
  obtain ⟨outcome, r', n, h⟩ := exists_reads [] r
  have hscanner : r.read.2.scanner = r.scanner.afterCalls n := by
    rw [read, h.readWithin]
    exact h.scanner
  rw [hscanner]
  exact Scanner.exists_passes_afterCalls n r.scanner

theorem exists_passes_readAll (r : Reader) :
    ∃ taken, r.scanner.Passes taken r.readAll.2.scanner := by
  obtain ⟨vs, stop, r', n, h⟩ := exists_readsAll r
  have hscanner : r.readAll.2.scanner = r.scanner.afterCalls n := by
    rw [readAll, h.oneByOne.readAllAfter]
    exact h.scanner
  rw [hscanner]
  exact Scanner.exists_passes_afterCalls n r.scanner

/-- The cursor moves, or the end of the text comes in sight. -/
def GoesOn (r r' : Reader) : Prop :=
  (∃ taken, taken ≠ [] ∧ r.scanner.Passes taken r'.scanner) ∨ ¬ r.atEnd ∧ r'.atEnd

theorem goesOn_of_read (h : r.read = (.ok v, r')) : r.GoesOn r' := by
  have hlt : r'.remaining < r.remaining := readWithin_remaining_lt h
  obtain ⟨taken, hpasses⟩ := r.exists_passes_read
  rw [h] at hpasses
  by_cases htaken : taken = []
  -- The cursor stays, so what is left can only have become less by the end coming in sight.
  · subst htaken
    have hlength : r.scanner.rest.length = r'.scanner.rest.length := congrArg _ hpasses.1
    rw [remaining, remaining, hlength, Nat.add_lt_add_iff_left] at hlt
    right
    cases hr : r.atEnd <;> cases hr' : r'.atEnd <;> simp [hr, hr'] at hlt ⊢
  · exact .inl ⟨taken, htaken, hpasses⟩

/-- In every state a reader that reads a value goes on, and its cursor does not move back, also if
it fails. Reading a value and reading all of them come to an end after at most one more call of the
scanner than there are characters left. -/
theorem reading_goes_on_and_ends (r : Reader) :
    (∀ v r', r.read = (.ok v, r') → r.GoesOn r') ∧
    (∃ taken, r.scanner.Passes taken r.read.2.scanner) ∧
    (∃ taken, r.scanner.Passes taken r.readAll.2.scanner) ∧
    ((∃ outcome r' n, Reads [] r outcome r' n) ∧
      ∀ outcome r' n, Reads [] r outcome r' n → r.read = (outcome, r') ∧
        r'.scanner = r.scanner.afterCalls n ∧ n ≤ r.scanner.rest.length + 1) ∧
    (∃ vs stop r' n, ReadsAll r vs stop r' n) ∧
      ∀ vs stop r' n, ReadsAll r vs stop r' n → r.readAll = (Reader.outcome vs stop, r') ∧
        r'.scanner = r.scanner.afterCalls n ∧ n ≤ r.scanner.rest.length + 1 := by
  refine ⟨?_, r.exists_passes_read, r.exists_passes_readAll, ⟨exists_reads [] r, ?_⟩,
    exists_readsAll r, ?_⟩
  · intro v r' h
    exact goesOn_of_read h
  · intro outcome r' n h
    exact ⟨h.readWithin, h.scanner, h.calls_le.trans r.remaining_le⟩
  · intro vs stop r' n h
    exact ⟨h.oneByOne.readAllAfter [], h.scanner, h.calls_le.trans r.remaining_le⟩

/-- A symbol that has lost its text, with nothing behind it. -/
private def spentSymbol : Reader := ⟨⟨[], ⟨1, 4⟩⟩, ⟨.symbol "", ⟨1, 1⟩⟩⟩

private def behindSpentSymbol : Reader := ⟨⟨[], ⟨1, 4⟩⟩, ⟨.endOfInput, ⟨1, 4⟩⟩⟩

/-- Behind the error about a string without its end no character is left. What is read then does not
move the cursor, and takes the one call that there may be. -/
theorem spent_symbol_brings_end_in_sight :
    (∃ r, Reader.ofString "a \"" = .ok r ∧
      r.read = (.error ⟨.scan .unterminatedString, ⟨1, 3⟩⟩, spentSymbol)) ∧
    spentSymbol.read = (.ok (.symbol ""), behindSpentSymbol) ∧
      spentSymbol.GoesOn behindSpentSymbol ∧
      Reads [] spentSymbol (.ok (.symbol "")) behindSpentSymbol 1 ∧
      1 ≤ spentSymbol.scanner.rest.length + 1 ∧
    ReadsAll spentSymbol [.symbol ""] none behindSpentSymbol 1 ∧
      spentSymbol.readAll = (.ok [.symbol ""], behindSpentSymbol) := by
  have hread : Reads [] spentSymbol (.ok (.symbol "")) behindSpentSymbol 1 := .done rfl rfl
  have hreadAll : ReadsAll spentSymbol [.symbol ""] none behindSpentSymbol 1 :=
    .value (by decide) hread (.atEnd rfl)
  obtain ⟨hgoesOn, -, -, ⟨-, hone⟩, -, hall⟩ := reading_goes_on_and_ends spentSymbol
  obtain ⟨hvalue, -, hcalls⟩ := hone _ _ _ hread
  refine ⟨⟨⟨⟨[' ', '"'], ⟨1, 2⟩⟩, ⟨.symbol "a", ⟨1, 1⟩⟩⟩, rfl, ?_⟩, hvalue, hgoesOn _ _ hvalue,
    hread, hcalls, hreadAll, (hall _ _ _ _ hreadAll).1⟩
  exact readWithin_of_advance_error (p := .done (.symbol "a")) rfl rfl

end Reader

end ScopedLisp
