import ScopedLisp.Numeral
import ScopedLisp.Token
import ScopedLisp.Value

namespace ScopedLisp

inductive Datum
  | number (lexeme : String)
  | string (content : String)
  | symbol (name : String)
  | quoted (d : Datum)
  | list (ds : List Datum)

namespace Datum

mutual

/-- The tokens that a datum is written with. -/
def tokens : Datum → List Token
  | number lexeme => [.number lexeme]
  | string content => [.string content]
  | symbol name => [.symbol name]
  | quoted d => .quote :: tokens d
  | list ds => .leftParen :: (allTokens ds ++ [.rightParen])

def allTokens : List Datum → List Token
  | [] => []
  | d :: ds => tokens d ++ allTokens ds

end

mutual

/-- The value of a tree, if its numbers are numerals. -/
def reading : Datum → Option Value
  | number lexeme => (Numeral.ofChars? lexeme.toList).map fun n => .number n.value
  | string content => some (.string content)
  | symbol "t" => some (.boolean true)
  | symbol "nil" => some .nil
  | symbol name => some (.symbol name)
  | quoted d => (reading d).map fun v => .list [.symbol "quote", v]
  | list ds => (allReadings ds).map .list

def allReadings : List Datum → Option (List Value)
  | [] => some []
  | d :: ds => do
    let v ← reading d
    let vs ← allReadings ds
    return v :: vs

end

theorem allReadings_cons_eq_some_iff {d : Datum} {ds : List Datum} {vs : List Value} :
    allReadings (d :: ds) = some vs ↔
      ∃ v ws, d.reading = some v ∧ allReadings ds = some ws ∧ vs = v :: ws := by
  cases hd : d.reading with
  | none => simp [allReadings, hd]
  | some v =>
    cases hds : allReadings ds with
    | none => simp [allReadings, hd, hds]
    | some ws => simp [allReadings, hd, hds, eq_comm]

/-- The first token of a datum neither closes a list nor ends the text. -/
theorem tokens_eq_cons (d : Datum) :
    ∃ t us, d.tokens = t :: us ∧ t ≠ .rightParen ∧ t ≠ .endOfInput := by
  cases d with
  | number lexeme => exact ⟨_, _, rfl, by simp, by simp⟩
  | string content => exact ⟨_, _, rfl, by simp, by simp⟩
  | symbol name => exact ⟨_, _, rfl, by simp, by simp⟩
  | quoted d => exact ⟨_, _, rfl, by simp, by simp⟩
  | list ds => exact ⟨_, _, rfl, by simp, by simp⟩

theorem tokens_append_ne_close (d : Datum) (us us' : List Token) :
    d.tokens ++ us ≠ .rightParen :: us' := by
  obtain ⟨t, more, htokens, ht, -⟩ := d.tokens_eq_cons
  rw [htokens, List.cons_append]
  intro h
  exact ht (List.cons.inj h).1

mutual

/-- No datum's tokens begin those of another datum. -/
theorem tokens_append_inj : ∀ (d d' : Datum) {us us' : List Token},
    d.tokens ++ us = d'.tokens ++ us' → d = d' ∧ us = us'
  | number lexeme, d', us, us', h => by
    cases d' with
    | number lexeme' => simpa [tokens] using h
    | _ => simp [tokens] at h
  | string content, d', us, us', h => by
    cases d' with
    | string content' => simpa [tokens] using h
    | _ => simp [tokens] at h
  | symbol name, d', us, us', h => by
    cases d' with
    | symbol name' => simpa [tokens] using h
    | _ => simp [tokens] at h
  | quoted d, d', us, us', h => by
    cases d' with
    | quoted d' =>
      have hrest : d.tokens ++ us = d'.tokens ++ us' := by simpa [tokens] using h
      obtain ⟨hd, hus⟩ := tokens_append_inj d d' hrest
      exact ⟨congrArg quoted hd, hus⟩
    | _ => simp [tokens] at h
  | list ds, d', us, us', h => by
    cases d' with
    | list ds' =>
      have hrest : allTokens ds ++ .rightParen :: us = allTokens ds' ++ .rightParen :: us' := by
        simpa [tokens] using h
      obtain ⟨hds, hus⟩ := allTokens_close_inj ds ds' hrest
      exact ⟨congrArg list hds, hus⟩
    | _ => simp [tokens] at h

theorem allTokens_close_inj : ∀ (ds ds' : List Datum) {us us' : List Token},
    allTokens ds ++ .rightParen :: us = allTokens ds' ++ .rightParen :: us' → ds = ds' ∧ us = us'
  | [], [], us, us', h => by simpa [allTokens] using h
  | [], d' :: ds', us, us', h => by
    rw [allTokens, allTokens, List.append_assoc] at h
    exact absurd h.symm (tokens_append_ne_close d' _ _)
  | d :: ds, [], us, us', h => by
    rw [allTokens, allTokens, List.append_assoc] at h
    exact absurd h (tokens_append_ne_close d _ _)
  | d :: ds, d' :: ds', us, us', h => by
    rw [allTokens, allTokens, List.append_assoc, List.append_assoc] at h
    obtain ⟨hd, hrest⟩ := tokens_append_inj d d' h
    obtain ⟨hds, hus⟩ := allTokens_close_inj ds ds' hrest
    exact ⟨by rw [hd, hds], hus⟩

end

theorem allTokens_injective {ds ds' : List Datum} (h : allTokens ds = allTokens ds') :
    ds = ds' := by
  have hclose : allTokens ds ++ [.rightParen] = allTokens ds' ++ [.rightParen] := by rw [h]
  exact (allTokens_close_inj ds ds' hclose).1

mutual

theorem reading_isSome : ∀ d : Datum,
    (∀ lexeme, .number lexeme ∈ d.tokens → (Numeral.ofChars? lexeme.toList).isSome) →
      ∃ v, d.reading = some v
  | number lexeme, h => by
    have hsome := h lexeme (by simp [tokens])
    obtain ⟨n, hn⟩ := Option.isSome_iff_exists.1 hsome
    exact ⟨.number n.value, by simp [reading, hn]⟩
  | string content, _ => ⟨.string content, rfl⟩
  | symbol name, _ => by
    unfold reading
    split <;> simp_all
  | quoted d, h => by
    have hd : ∀ lexeme, .number lexeme ∈ d.tokens →
        (Numeral.ofChars? lexeme.toList).isSome := fun lexeme hmem =>
      h lexeme (by simp [tokens, hmem])
    obtain ⟨v, hv⟩ := reading_isSome d hd
    exact ⟨_, by rw [reading, hv]; rfl⟩
  | list ds, h => by
    have hds : ∀ lexeme, .number lexeme ∈ allTokens ds →
        (Numeral.ofChars? lexeme.toList).isSome := fun lexeme hmem =>
      h lexeme (by simp [tokens, hmem])
    obtain ⟨vs, hvs⟩ := allReadings_isSome ds hds
    exact ⟨.list vs, by rw [reading, hvs]; rfl⟩

theorem allReadings_isSome : ∀ ds : List Datum,
    (∀ lexeme, .number lexeme ∈ allTokens ds → (Numeral.ofChars? lexeme.toList).isSome) →
      ∃ vs, allReadings ds = some vs
  | [], _ => ⟨[], rfl⟩
  | d :: ds, h => by
    have hd := reading_isSome d fun lexeme hmem => h lexeme (by simp [allTokens, hmem])
    have hds := allReadings_isSome ds fun lexeme hmem => h lexeme (by simp [allTokens, hmem])
    obtain ⟨v, hv⟩ := hd
    obtain ⟨vs, hvs⟩ := hds
    exact ⟨v :: vs, by simp [allReadings, hv, hvs]⟩

end

end Datum

end ScopedLisp
