import ScopedLisp.Proofs.Printing.Marks
import ScopedLisp.Proofs.Reader.Direct
import ScopedLisp.Proofs.Value.Part

namespace ScopedLisp

open Scanner

namespace Value

/-- Made of such atoms by non-empty proper lists. -/
inductive Made (atom : Value → Prop) : Value → Prop
  | atom {v : Value} (h : atom v) : Made atom v
  | list {v : Value} {vs : List Value} (h : ∀ w ∈ v :: vs, Made atom w) :
    Made atom (list (v :: vs))

theorem partOf_list {part v : Value} {items : List Value} (hv : v ∈ items)
    (h : part.PartOf v) : part.PartOf (list items) := by
  induction items with
  | nil => cases hv
  | cons w items ih =>
    rcases List.mem_cons.1 hv with rfl | hv
    · exact .head h _
    · exact .tail (ih hv) _

theorem Made.mono {atom atom' : Value → Prop} {v : Value} (h : v.Made atom)
    (hatom : ∀ w, w.PartOf v → atom w → atom' w) : v.Made atom' := by
  induction h with
  | atom h => exact .atom (hatom _ .self h)
  | list h ih => exact .list fun w hw => ih w hw fun u hu => hatom u (partOf_list hw hu)

end Value

/-- How atoms are read back: as one token each, for a value that is related to the atom. -/
structure Rereads (atom : Value → Prop) (R : Value → Value → Prop) : Prop where
  atom : ∀ v, atom v → v.kind ≠ .pair ∧ ∃ t w, t.IsOf v.atomChars ∧
    (∀ frames, Progress.ofToken frames t = .ok (.ofValue frames w)) ∧ R w v
  list : ∀ ws vs, List.Forall₂ R ws vs → R (.list ws) (.list vs)

variable {R : Value → Value → Prop}

/-- In every layout of the value, in front of what cannot belong to it, the scanner reads a value
that is related to it. -/
def ReadBack (R : Value → Value → Prop) (v : Value) : Prop :=
  ∀ (pieces : List (List Char)) (s : Scanner) (a u : List Char) (frames : List Frame),
    List.Forall₂ Mark.Written v.marks pieces → s.rest = a ++ (pieces.flatten ++ u) → Blanks a →
    Delimits u → ∃ (w : Value) (s' : Scanner) (b : List Char), R w v ∧ Blanks b ∧
      s'.rest = b ++ u ∧ s.readValue frames = s'.goOn (.ofValue frames w)

theorem isOf_leftParen : Token.leftParen.IsOf ['('] := ⟨rfl, nofun⟩

theorem isOf_rightParen : Token.rightParen.IsOf [')'] := ⟨rfl, nofun⟩

theorem delimits_rightParen (u : List Char) : Delimits (')' :: u) := by
  rintro c ⟨⟩
  exact ⟨rfl, by decide⟩

/-- What goes on after an element of a list is blank or closes the list. -/
theorem delimits_tailMarks {vs : List Value} {pieces : List (List Char)}
    (h : List.Forall₂ Mark.Written (Value.list vs).tailMarks pieces) (u : List Char) :
    Delimits (pieces.flatten ++ u) := by
  cases vs with
  | nil =>
    cases h with
    | cons hclosing hnil =>
      cases hnil
      cases hclosing with
      | closing hbefore hafter =>
        simp only [List.flatten_cons, List.flatten_nil, List.append_nil, List.append_assoc,
          List.cons_append]
        exact hbefore.delimits (delimits_rightParen _)
  | cons v vs =>
    cases h with
    | cons hgap hmarks =>
      cases hgap with
      | gap hblank hne =>
        obtain ⟨c, cs, rfl⟩ := List.exists_cons_of_ne_nil hne
        exact delimits_of_isBlank (hblank c (.head _)) _

/-- In every layout of the marks, inside a list, the scanner reads elements that are related to the
values, up to the end of the list. -/
def ElementsReadBack (R : Value → Value → Prop) (vs : List Value) (marks : List Mark) : Prop :=
  ∀ (pieces : List (List Char)) (s : Scanner) (a u : List Char) (frames : List Frame)
    (items : List Value), List.Forall₂ Mark.Written marks pieces →
    s.rest = a ++ (pieces.flatten ++ u) → Blanks a →
    ∃ (ws : List Value) (s' : Scanner) (b : List Char), List.Forall₂ R ws vs ∧ Blanks b ∧
      s'.rest = b ++ u ∧ s.readValue (.list items :: frames) =
        s'.goOn (.ofValue frames (.list (items.reverse ++ ws)))

theorem exists_pieces_append {as bs : List Mark} {pieces : List (List Char)}
    (h : List.Forall₂ Mark.Written (as ++ bs) pieces) : ∃ front back, pieces = front ++ back ∧
      List.Forall₂ Mark.Written as front ∧ List.Forall₂ Mark.Written bs back := by
  have hfront := List.forall₂_take as.length h
  have hback := List.forall₂_drop as.length h
  rw [List.take_left] at hfront
  rw [List.drop_left] at hback
  exact ⟨_, _, (List.take_append_drop as.length pieces).symm, hfront, hback⟩

/-- An element, and then what comes after it. -/
theorem elementsReadBack_cons {v : Value} {vs : List Value} (hv : ReadBack R v)
    (hvs : ElementsReadBack R vs (Value.list vs).tailMarks) :
    ElementsReadBack R (v :: vs) (v.marks ++ (Value.list vs).tailMarks) := by
  intro pieces s a u frames items h hs ha
  obtain ⟨front, back, rfl, hfront, hback⟩ := exists_pieces_append h
  rw [List.flatten_append, List.append_assoc] at hs
  obtain ⟨w, s₁, b, hw, hb, hrest, hread⟩ := hv front s a _ (.list items :: frames) hfront hs ha
    (delimits_tailMarks hback u)
  obtain ⟨ws, s', b', hws, hb', hrest', hread'⟩ :=
    hvs back s₁ b u frames (w :: items) hback hrest hb
  refine ⟨w :: ws, s', b', .cons hw hws, hb', hrest', ?_⟩
  rw [hread]
  change s₁.readValue (.list (w :: items) :: frames) = _
  rw [hread', List.reverse_cons, List.append_assoc, List.singleton_append]

/-- The rest of a list is read element by element, up to its closing parenthesis. -/
theorem elementsReadBack_tailMarks {vs : List Value} (hvs : ∀ v ∈ vs, ReadBack R v) :
    ElementsReadBack R vs (Value.list vs).tailMarks := by
  induction vs with
  | nil =>
    intro pieces s a u frames items h hs ha
    obtain _ | ⟨_ | @⟨before, after, hbefore, hafter⟩, ⟨⟩⟩ := h
    have hs' : s.rest = (a ++ before) ++ [')'] ++ (after ++ u) := by simpa using hs
    obtain ⟨p, s', hnext, hrest⟩ := next_of_isOf hs' (ha.append hbefore) isOf_rightParen nofun
    refine ⟨[], s', after, .nil, hafter, hrest, ?_⟩
    rw [List.append_nil]
    exact readValue_of_next hnext rfl
  | cons v vs ih =>
    intro pieces s a u frames items h hs ha
    obtain _ | @⟨_, gap, _, rest, _ | _ | ⟨hblank, -⟩, hmarks⟩ := h
    have hs' : s.rest = (a ++ gap) ++ (rest.flatten ++ u) := by simpa using hs
    exact elementsReadBack_cons (hvs v (.head _)) (ih fun w hw => hvs w (.tail _ hw)) rest s _ u
      frames items hmarks hs' (ha.append hblank)

theorem marks_of_ne_pair {v : Value} (h : v.kind ≠ .pair) : v.marks = [.atom v.atomChars] := by
  cases v with
  | pair => exact absurd rfl h
  | _ => rfl

/-- Values made of atoms are read back as what is made of what the atoms are read as. -/
theorem readBack_of_made {atom : Value → Prop} (h : Rereads atom R) {v : Value}
    (hv : v.Made atom) : ReadBack R v := by
  induction hv with
  | @atom v hv =>
    intro pieces s a u frames hpieces hs ha hu
    obtain ⟨hkind, t, w, ht, hread, hw⟩ := h.atom v hv
    rw [marks_of_ne_pair hkind] at hpieces
    obtain _ | ⟨⟨⟩, ⟨⟩⟩ := hpieces
    have hs' : s.rest = a ++ v.atomChars ++ u := by simpa using hs
    obtain ⟨p, s', hnext, hrest⟩ := next_of_isOf hs' ha ht fun _ => hu
    exact ⟨w, s', [], hw, blanks_nil, hrest, readValue_of_next hnext (hread frames)⟩
  | @list v vs _ ih =>
    intro pieces s a u frames hpieces hs ha hu
    obtain _ | @⟨_, _, _, rest, @⟨before, after, hbefore, hafter⟩, hmarks⟩ := hpieces
    have hs' : s.rest = (a ++ before) ++ ['('] ++ (after ++ (rest.flatten ++ u)) := by
      simpa using hs
    obtain ⟨p, s₁, hnext, hrest⟩ := next_of_isOf hs' (ha.append hbefore) isOf_leftParen nofun
    have helements := elementsReadBack_cons (ih v (.head _))
      (elementsReadBack_tailMarks fun w hw => ih w (.tail _ hw))
    obtain ⟨ws, s', b, hws, hb, hrest', hread⟩ := helements rest s₁ after u frames [] hmarks hrest
      hafter
    exact ⟨.list ws, s', b, h.list ws _ hws, hb, hrest', (readValue_of_next hnext rfl).trans hread⟩

/-- A text that is a layout of such a value has one value in it, and that one is related to it. -/
theorem read_of_laidOut {atom : Value → Prop} (h : Rereads atom R) {v : Value} (hv : v.Made atom)
    {source : String} (hsource : v.LaidOut source.toList) :
    ∃ w, readAll source = .ok [w] ∧ readOne source = .ok w ∧ R w v := by
  obtain ⟨before, pieces, after, hbefore, hpieces, hafter, heq⟩ := hsource
  have hdelimits : Delimits after := by
    have := hafter.delimits (u := []) (by rintro c ⟨⟩)
    rwa [List.append_nil] at this
  have hrest : (Scanner.ofString source).rest = before ++ (pieces.flatten ++ after) := by
    rw [← List.append_assoc]
    exact heq
  obtain ⟨w, s, b, hw, hb, hs, hread⟩ :=
    readBack_of_made h hv pieces _ before after [] hpieces hrest hbefore hdelimits
  have hend : s.atEnd := by
    rw [atEnd_iff, skipBlanks, hs]
    exact List.dropWhile_eq_nil_iff.2 (hb.append hafter)
  have hvalue : (Scanner.ofString source).readValue [] = .ok (w, s) := hread
  obtain ⟨p, s', hnext⟩ := next_of_atEnd hend
  exact ⟨w, readAll_of_readValue hvalue hend,
    readOne_eq_ok_iff.2 ⟨s, ⟨s', _⟩, hvalue, Reader.ofScanner_eq_ok_iff.2 hnext⟩, hw⟩

end ScopedLisp
