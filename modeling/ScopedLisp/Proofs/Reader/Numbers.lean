import ScopedLisp.Proofs.Numeral.ReadBack
import ScopedLisp.Proofs.Reader.Acceptance
import ScopedLisp.Proofs.Token.Longest

namespace ScopedLisp

open Datum

theorem Derives.unique {source : String} {ds ds' : List Datum} (h : Derives source ds)
    (h' : Derives source ds') : ds' = ds := by
  obtain ⟨ts, hts, hitems⟩ := h
  obtain ⟨ts', hts', hitems'⟩ := h'
  rw [hts] at hts'
  cases hts'
  rw [hitems] at hitems'
  exact allTokens_injective (List.append_cancel_right hitems'.symm)

end ScopedLisp
