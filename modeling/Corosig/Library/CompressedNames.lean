import Mathlib.Data.List.Basic
import Mathlib.Tactic.Common

namespace CompressedNames

abbrev Octet := Fin 256

def octet (n : Nat) : Octet := ⟨n % 256, Nat.mod_lt n (by decide)⟩

def labelOctets (label : List Octet) : List Octet := octet label.length :: label

def pointerOctets (offset : Nat) : List Octet := [octet (0xC0 + offset / 256), octet offset]

def Occurs (octets message : List Octet) (pos : Nat) : Prop := octets <+: message.drop pos

inductive Laid (message : List Octet) : Nat → Nat → List (List Octet) → Prop where
  | root {pos : Nat} (here : Occurs [octet 0] message pos) : Laid message pos 1 []
  | label {pos size : Nat} {label : List Octet} {labels : List (List Octet)}
      (nonempty : label ≠ []) (short : label.length ≤ 63)
      (here : Occurs (labelOctets label) message pos)
      (rest : Laid message (pos + (label.length + 1)) size labels) :
      Laid message pos (label.length + 1 + size) (label :: labels)
  | pointer {pos offset size : Nat} {labels : List (List Octet)} (small : offset ≤ 0x3FFF)
      (here : Occurs (pointerOctets offset) message pos)
      (rest : Laid message offset size labels) : Laid message pos 2 labels

inductive Piece where
  | root
  | label (octets : List Octet)
  | pointer (offset : Nat)
  deriving DecidableEq, Repr

def Piece.octets : Piece → List Octet
  | .root => [octet 0]
  | .label octets => labelOctets octets
  | .pointer offset => pointerOctets offset

def Piece.Proper : Piece → Prop
  | .root => True
  | .label octets => octets ≠ [] ∧ octets.length ≤ 63
  | .pointer offset => offset ≤ 0x3FFF

@[simp] def Piece.after (pos : Nat) : Piece → Nat
  | .root => pos
  | .label octets => pos + (octets.length + 1)
  | .pointer offset => offset

inductive Walk (message : List Octet) : Nat → List Piece → Prop where
  | root {pos : Nat} (here : Occurs [octet 0] message pos) : Walk message pos [.root]
  | next {pos : Nat} {piece : Piece} {pieces : List Piece} (goesOn : piece ≠ .root)
      (proper : piece.Proper) (here : Occurs piece.octets message pos)
      (rest : Walk message (piece.after pos) pieces) : Walk message pos (piece :: pieces)

def extent : List Piece → Nat
  | [] => 0
  | .root :: _ => 1
  | .label octets :: pieces => octets.length + 1 + extent pieces
  | .pointer _ :: _ => 2

def labelsOf (pieces : List Piece) : List (List Octet) :=
  pieces.filterMap fun
    | .label octets => some octets
    | _ => none

def rootOf (pos : Nat) (pieces : List Piece) : Nat := pieces.foldl (fun pos p => p.after pos) pos

def wireLength : List (List Octet) → Nat
  | [] => 1
  | label :: labels => label.length + 1 + wireLength labels

variable {octets message : List Octet} {pos size : Nat} {labels : List (List Octet)}

def nameOctets (labels : List (List Octet)) : List Octet :=
  labels.flatMap labelOctets ++ [octet 0]

theorem octet_val {n : Nat} (h : n < 256) : (octet n).val = n := Nat.mod_eq_of_lt h

theorem octet_self (o : Octet) : octet o.val = o := Fin.ext (octet_val o.isLt)

theorem wireLength_pos (labels : List (List Octet)) : 0 < wireLength labels := by
  cases labels with
  | nil => exact Nat.one_pos
  | cons label labels =>
    rw [wireLength]
    omega

theorem Occurs.bound (h : Occurs octets message pos) (hne : octets ≠ []) :
    pos + octets.length ≤ message.length := by
  have hlen := h.length_le
  have hpos := List.length_pos_iff.mpr hne
  rw [List.length_drop] at hlen
  omega

theorem Occurs.room (h : Occurs octets message pos) (hpos : pos ≤ message.length) :
    pos + octets.length ≤ message.length := by
  have hlen := h.length_le
  rw [List.length_drop] at hlen
  omega

theorem Occurs.append (h : Occurs octets message pos) (extra : List Octet) :
    Occurs octets (message ++ extra) pos := by
  rw [Occurs, List.drop_append]
  exact h.trans (List.prefix_append _ _)

theorem occurs_here (before octets after : List Octet) :
    Occurs octets (before ++ octets ++ after) before.length := by
  rw [Occurs, List.append_assoc, List.drop_left]
  exact List.prefix_append _ _

theorem Laid.size_pos (h : Laid message pos size labels) : 0 < size := by
  cases h with
  | root => exact Nat.one_pos
  | label => omega
  | pointer => exact Nat.two_pos

theorem Laid.bound (h : Laid message pos size labels) : pos + size ≤ message.length := by
  induction h with
  | root here => exact here.bound (List.cons_ne_nil _ _)
  | label _ _ _ _ ih => omega
  | pointer _ here _ _ => exact here.bound (List.cons_ne_nil _ _)

theorem Laid.append (h : Laid message pos size labels) (extra : List Octet) :
    Laid (message ++ extra) pos size labels := by
  induction h with
  | root here => exact .root (here.append extra)
  | label nonempty short here _ ih => exact .label nonempty short (here.append extra) ih
  | pointer small here _ ih => exact .pointer small (here.append extra) ih

theorem occurs_append {octets' : List Octet} : Occurs (octets ++ octets') message pos ↔
    Occurs octets message pos ∧ Occurs octets' message (pos + octets.length) := by
  unfold Occurs
  constructor
  · rintro ⟨rest, hrest⟩
    rw [← List.drop_drop, ← hrest, List.append_assoc, List.drop_left]
    exact ⟨List.prefix_append _ _, List.prefix_append _ _⟩
  · rintro ⟨⟨after, hafter⟩, h⟩
    rw [← List.drop_drop, ← hafter, List.drop_left] at h
    rw [← hafter]
    exact (List.prefix_append_right_inj octets).mpr h

theorem Occurs.unique {octets' : List Octet} (h : Occurs octets message pos)
    (h' : Occurs octets' message pos) (hlen : octets.length = octets'.length) :
    octets = octets' :=
  (List.prefix_of_prefix_length_le h h' (Nat.le_of_eq hlen)).eq_of_length hlen

theorem Occurs.head {o o' : Octet} {octets' : List Octet} (h : Occurs (o :: octets) message pos)
    (h' : Occurs (o' :: octets') message pos) : o = o' := by
  have h₁ : Occurs ([o] ++ octets) message pos := h
  have h₂ : Occurs ([o'] ++ octets') message pos := h'
  exact (List.cons.inj ((occurs_append.mp h₁).1.unique (occurs_append.mp h₂).1 rfl)).1

theorem pointerOctets_inj {offset offset' : Nat} (h : offset ≤ 0x3FFF) (h' : offset' ≤ 0x3FFF)
    (heq : pointerOctets offset = pointerOctets offset') : offset = offset' := by
  simp only [pointerOctets, List.cons.injEq, Fin.ext_iff, octet, and_true] at heq
  omega

def Piece.lead : Piece → Nat
  | .root => 0
  | .label octets => octets.length
  | .pointer offset => 0xC0 + offset / 256

theorem Piece.lead_eq {p : Piece} (hp : p.Proper) (h : Occurs p.octets message pos) {o : Octet}
    {rest : List Octet} (ho : Occurs (o :: rest) message pos) : o.val = p.lead := by
  cases p with
  | root => exact congrArg Fin.val (ho.head h)
  | label octets => exact (congrArg Fin.val (ho.head h)).trans (octet_val (by have := hp.2; omega))
  | pointer offset =>
    have hsmall : offset ≤ 0x3FFF := hp
    exact (congrArg Fin.val (ho.head h)).trans (octet_val (by omega))

theorem Piece.unique {p q : Piece} (hp : p.Proper) (hq : q.Proper)
    (h : Occurs p.octets message pos) (h' : Occurs q.octets message pos) : p = q := by
  have hlead : p.lead = q.lead := by
    cases p with
    | root => exact Piece.lead_eq hq h' h
    | label octets => exact (Piece.lead_eq hp h h).symm.trans (Piece.lead_eq hq h' h)
    | pointer offset => exact (Piece.lead_eq hp h h).symm.trans (Piece.lead_eq hq h' h)
  cases p with
  | root =>
    cases q with
    | root => rfl
    | label octets => exact absurd (List.length_eq_zero_iff.mp hlead.symm) hq.1
    | pointer offset =>
      simp only [Piece.lead] at hlead
      omega
  | label octets =>
    cases q with
    | root => exact absurd (List.length_eq_zero_iff.mp hlead) hp.1
    | label octets' =>
      have hlen : octets.length = octets'.length := hlead
      have heq := h.unique h' (congrArg (· + 1) hlen)
      exact congrArg Piece.label (List.cons.inj heq).2
    | pointer offset =>
      have hshort := hp.2
      simp only [Piece.lead] at hlead
      omega
  | pointer offset =>
    cases q with
    | root =>
      simp only [Piece.lead] at hlead
      omega
    | label octets =>
      have hshort := hq.2
      simp only [Piece.lead] at hlead
      omega
    | pointer offset' => exact congrArg Piece.pointer (pointerOctets_inj hp hq (h.unique h' rfl))

@[simp] theorem labelsOf_label (octets : List Octet) (pieces : List Piece) :
    labelsOf (.label octets :: pieces) = octets :: labelsOf pieces := rfl

@[simp] theorem labelsOf_pointer (offset : Nat) (pieces : List Piece) :
    labelsOf (.pointer offset :: pieces) = labelsOf pieces := rfl

@[simp] theorem rootOf_nil (pos : Nat) : rootOf pos [] = pos := rfl

@[simp] theorem rootOf_cons (pos : Nat) (piece : Piece) (pieces : List Piece) :
    rootOf pos (piece :: pieces) = rootOf (piece.after pos) pieces := rfl

theorem Walk.unique {pieces pieces' : List Piece} (h : Walk message pos pieces)
    (h' : Walk message pos pieces') : pieces = pieces' := by
  induction h generalizing pieces' with
  | root here =>
    cases h' with
    | root => rfl
    | next goesOn proper here' => exact absurd (Piece.unique (q := .root) proper trivial here' here) goesOn
  | next goesOn proper here _ ih =>
    cases h' with
    | root here' => exact absurd (Piece.unique (q := .root) proper trivial here here') goesOn
    | next _ proper' here' rest' =>
      obtain rfl := Piece.unique proper proper' here here'
      exact congrArg _ (ih rest')

theorem Laid.walk (h : Laid message pos size labels) :
    ∃ pieces, Walk message pos pieces ∧ extent pieces = size ∧ labelsOf pieces = labels := by
  induction h with
  | root here => exact ⟨[.root], .root here, rfl, rfl⟩
  | @label pos size l labels nonempty short here _ ih =>
    obtain ⟨pieces, hwalk, rfl, rfl⟩ := ih
    exact ⟨.label l :: pieces, .next Piece.noConfusion ⟨nonempty, short⟩ here hwalk, rfl, rfl⟩
  | @pointer pos offset size labels small here _ ih =>
    obtain ⟨pieces, hwalk, -, rfl⟩ := ih
    exact ⟨.pointer offset :: pieces, .next Piece.noConfusion small here hwalk, rfl, rfl⟩

theorem Laid.unique {size' : Nat} {labels' : List (List Octet)}
    (h : Laid message pos size labels) (h' : Laid message pos size' labels') :
    size = size' ∧ labels = labels' := by
  obtain ⟨pieces, hwalk, rfl, rfl⟩ := h.walk
  obtain ⟨pieces', hwalk', rfl, rfl⟩ := h'.walk
  obtain rfl := hwalk.unique hwalk'
  exact ⟨rfl, rfl⟩

variable {pieces : List Piece}

theorem Walk.extent_pos (h : Walk message pos pieces) : 0 < extent pieces := by
  cases h with
  | root => exact Nat.one_pos
  | @next _ piece _ goesOn =>
    cases piece with
    | root => exact absurd rfl goesOn
    | label octets =>
      rw [extent]
      omega
    | pointer offset => exact Nat.two_pos

theorem Walk.split (h : Walk message pos pieces) :
    ∃ labels : List (List Octet), pieces = labels.map .label ++ [.root] ∨
      ∃ offset rest, pieces = labels.map .label ++ .pointer offset :: rest := by
  induction h with
  | root => exact ⟨[], .inl rfl⟩
  | @next _ piece pieces goesOn _ _ _ ih =>
    cases piece with
    | root => exact absurd rfl goesOn
    | pointer offset => exact ⟨[], .inr ⟨offset, pieces, rfl⟩⟩
    | label octets =>
      obtain ⟨labels, rfl | ⟨offset, rest, rfl⟩⟩ := ih
      · exact ⟨octets :: labels, .inl rfl⟩
      · exact ⟨octets :: labels, .inr ⟨offset, rest, rfl⟩⟩

theorem extent_labels (pieces : List Piece) :
    extent (labels.map .label ++ pieces) = (labels.flatMap labelOctets).length + extent pieces := by
  induction labels with
  | nil => exact (Nat.zero_add _).symm
  | cons label labels ih =>
    rw [List.map_cons, List.cons_append, extent, ih, List.flatMap_cons, List.length_append,
      labelOctets, List.length_cons]
    omega

theorem labelsOf_labels (pieces : List Piece) :
    labelsOf (labels.map .label ++ pieces) = labels ++ labelsOf pieces := by
  induction labels with
  | nil => rfl
  | cons label labels ih => exact congrArg (label :: ·) ih

theorem wireLength_append (labels labels' : List (List Octet)) :
    wireLength (labels ++ labels') =
      (labels.flatMap labelOctets).length + wireLength labels' := by
  induction labels with
  | nil => exact (Nat.zero_add _).symm
  | cons label labels ih =>
    rw [List.cons_append, wireLength, ih, List.flatMap_cons, List.length_append, labelOctets,
      List.length_cons]
    omega

theorem Walk.extent_le (h : Walk message pos pieces) :
    extent pieces ≤ wireLength (labelsOf pieces) ∨
      ∃ (labels : List (List Octet)) (offset : Nat) (rest : List Piece),
        pieces = labels.map .label ++ .pointer offset :: rest ∧
        (labels.flatMap labelOctets).length + 1 ≤ wireLength (labelsOf pieces) := by
  obtain ⟨labels, rfl | ⟨offset, rest, rfl⟩⟩ := h.split
  · left
    rw [extent_labels, labelsOf_labels, wireLength_append]
    exact Nat.le_refl _
  · right
    refine ⟨labels, offset, rest, rfl, ?_⟩
    rw [labelsOf_labels, wireLength_append]
    exact Nat.add_le_add_left (wireLength_pos _) _

theorem Walk.rootOf_lt (h : Walk message pos pieces) : rootOf pos pieces < message.length := by
  induction h with
  | root here => exact here.bound (List.cons_ne_nil _ _)
  | next _ _ _ _ ih => exact ih

theorem Walk.proper (h : Walk message pos pieces) :
    ∀ label ∈ labelsOf pieces, label ≠ [] ∧ label.length ≤ 63 := by
  induction h with
  | root => rintro label ⟨⟩
  | @next _ piece pieces goesOn proper _ _ ih =>
    cases piece with
    | root => exact absurd rfl goesOn
    | label octets => exact List.forall_mem_cons.mpr ⟨proper, ih⟩
    | pointer offset => exact ih

theorem length_nameOctets (labels : List (List Octet)) :
    (nameOctets labels).length = wireLength labels := by
  induction labels with
  | nil => rfl
  | cons label labels ih =>
    simp only [nameOctets, List.length_append, List.length_singleton] at ih
    simp only [nameOctets, wireLength, List.flatMap_cons, List.length_append, labelOctets,
      List.length_cons, List.length_nil, ← ih]
    omega

theorem laid_nameOctets (hvalid : ∀ label ∈ labels, label ≠ [] ∧ label.length ≤ 63)
    (h : Occurs (nameOctets labels) message pos) : Laid message pos (wireLength labels) labels := by
  induction labels generalizing pos with
  | nil => exact .root h
  | cons label labels ih =>
    obtain ⟨⟨hne, hshort⟩, hrest⟩ := List.forall_mem_cons.mp hvalid
    rw [nameOctets, List.flatMap_cons, List.append_assoc] at h
    obtain ⟨hlabel, hnext⟩ := occurs_append.mp h
    exact .label hne hshort hlabel (ih hrest hnext)

end CompressedNames
