import Mathlib.Data.List.Induction
import Mathlib.Data.List.Perm.Basic

/-!
# Expression trees

A tree has a label at every node and its operands below it, from left to right. It can be listed
with the operands before their operator, as a program lists it, or as it is written, with a prefix
operator before its operands and an infix operator behind the first one. When labels fix the number
of operands, the first listing determines the trees.
-/

namespace Formula

/-- A label and its operands, from left to right. -/
inductive Tree (α : Type) where
  | node (label : α) (operands : List (Tree α))

namespace Tree

variable {α β : Type}

/-- Induction on trees: what holds of the operands may be used for the node. -/
@[elab_as_elim, induction_eliminator]
theorem induct {motive : Tree α → Prop}
    (node : ∀ label operands, (∀ t ∈ operands, motive t) → motive (.node label operands))
    (t : Tree α) : motive t := by
  refine @Tree.rec α motive (fun ts => ∀ t ∈ ts, motive t) node ?_ ?_ t
  · intro t ht
    cases ht
  · intro head tail hhead htail t ht
    rcases List.mem_cons.mp ht with rfl | ht
    · exact hhead
    · exact htail t ht

mutual

/-- The result of a tree, from its label and the results of its operands. -/
def fold (f : α → List β → β) : Tree α → β
  | .node label operands => f label (foldAll f operands)

/-- The results of trees, one after another. -/
def foldAll (f : α → List β → β) : List (Tree α) → List β
  | [] => []
  | t :: ts => fold f t :: foldAll f ts

end

theorem foldAll_eq_map (f : α → List β → β) (ts : List (Tree α)) :
    foldAll f ts = ts.map (fold f) := by
  induction ts with
  | nil => rfl
  | cons t ts ih => rw [foldAll, ih, List.map_cons]

theorem fold_node (f : α → List β → β) (label : α) (operands : List (Tree α)) :
    fold f (.node label operands) = f label (operands.map (fold f)) := by
  rw [fold, foldAll_eq_map]

/-- The labels with the operands before their operator. -/
def postorder : Tree α → List α :=
  fold fun label parts => parts.flatten ++ [label]

/-- The labels as they are written: an infix operator behind its first operand, any other label
before all of its operands. -/
def written (isInfix : α → Bool) : Tree α → List α :=
  fold fun label parts =>
    if isInfix label then (parts.take 1).flatten ++ label :: (parts.drop 1).flatten
    else label :: parts.flatten

/-- Every label has as many operands as it takes. -/
inductive Ranked (arity : α → Nat) : Tree α → Prop where
  | node {label : α} {operands : List (Tree α)} (hlength : operands.length = arity label)
      (hoperands : ∀ t ∈ operands, Ranked arity t) : Ranked arity (.node label operands)

@[simp] theorem postorder_node (label : α) (operands : List (Tree α)) :
    (node label operands).postorder = operands.flatMap postorder ++ [label] := by
  rw [postorder, fold_node, List.flatMap_def]

theorem written_prefix_node {isInfix : α → Bool} {label : α} (h : isInfix label = false)
    (operands : List (Tree α)) :
    (node label operands).written isInfix = label :: operands.flatMap (written isInfix) := by
  rw [written, fold_node, h, List.flatMap_def]
  rfl

theorem written_infix_node {isInfix : α → Bool} {label : α} (h : isInfix label = true)
    (left : Tree α) (right : List (Tree α)) :
    (node label (left :: right)).written isInfix =
      left.written isInfix ++ label :: right.flatMap (written isInfix) := by
  rw [written, fold_node, h, List.flatMap_def]
  simp

theorem written_leaf (isInfix : α → Bool) (label : α) :
    (node label []).written isInfix = [label] := by
  rw [written, fold_node]
  simp

/-- A label that takes the last trees of a forest stands right before those that are written behind
it. -/
theorem written_concat {isInfix : α → Bool} {label : α} {forest right rest operands : List (Tree α)}
    (hsame : forest ++ right = rest ++ operands)
    (hright : right.length = if isInfix label then operands.length - 1 else operands.length) :
    (rest ++ [node label operands]).flatMap (written isInfix) =
      forest.flatMap (written isInfix) ++ label :: right.flatMap (written isInfix) := by
  rw [List.flatMap_append, List.flatMap_singleton]
  by_cases hinfix : isInfix label = true
  · rw [if_pos hinfix] at hright
    cases operands with
    | nil =>
      have hnil : right = [] := List.eq_nil_of_length_eq_zero hright
      rw [hnil, List.append_nil, List.append_nil] at hsame
      rw [hsame, hnil, written_leaf]
      rfl
    | cons left operands =>
      rw [← List.singleton_append, ← List.append_assoc] at hsame
      obtain ⟨rfl, rfl⟩ := List.append_inj' hsame hright
      rw [written_infix_node hinfix, List.flatMap_append, List.append_assoc]
      simp
  · rw [if_neg hinfix] at hright
    obtain ⟨rfl, rfl⟩ := List.append_inj' hsame hright
    rw [written_prefix_node (by simpa using hinfix)]

/-- Both listings have the same labels. -/
theorem written_perm (isInfix : α → Bool) (t : Tree α) :
    (t.written isInfix).Perm t.postorder := by
  induction t with
  | node label operands ih =>
    have hoperands : (operands.flatMap (written isInfix)).Perm (operands.flatMap postorder) :=
      List.Perm.flatMap_left _ ih
    have hfirst := (hoperands.cons label).trans (List.perm_append_singleton _ _).symm
    rw [postorder_node]
    by_cases hinfix : isInfix label = true
    · cases operands with
      | nil =>
        rw [written_leaf]
        rfl
      | cons left right =>
        rw [written_infix_node hinfix]
        rw [List.flatMap_cons] at hfirst
        exact List.perm_middle.trans hfirst
    · rw [written_prefix_node (by simpa using hinfix)]
      exact hfirst

theorem flatMap_written_perm (isInfix : α → Bool) (ts : List (Tree α)) :
    (ts.flatMap (written isInfix)).Perm (ts.flatMap postorder) :=
  List.Perm.flatMap_left _ fun t _ => t.written_perm isInfix

/-- The operands are written in their order. -/
theorem flatMap_written_sublist (isInfix : α → Bool) (label : α) (operands : List (Tree α)) :
    (operands.flatMap (written isInfix)).Sublist ((node label operands).written isInfix) := by
  by_cases hinfix : isInfix label = true
  · cases operands with
    | nil => exact List.nil_sublist _
    | cons left right =>
      rw [written_infix_node hinfix, List.flatMap_cons]
      exact (List.sublist_cons_self _ _).append_left _
  · rw [written_prefix_node (by simpa using hinfix)]
    exact List.sublist_cons_self _ _

theorem postorder_ne_nil (t : Tree α) : t.postorder ≠ [] := by
  cases t
  simp

end Tree

/-- A list of labels lists trees one after another, each with its operands before its operator and
with as many operands as it takes. -/
def Lists {α : Type} (arity : α → Nat) (labels : List α) (ts : List (Tree α)) : Prop :=
  (∀ t ∈ ts, t.Ranked arity) ∧ labels = ts.flatMap Tree.postorder

namespace Lists

variable {α : Type} {arity : α → Nat}

theorem nil : Lists arity [] [] := by
  simp [Lists]

theorem append {p q : List α} {ts us : List (Tree α)} (hp : Lists arity p ts)
    (hq : Lists arity q us) : Lists arity (p ++ q) (ts ++ us) := by
  refine ⟨?_, by rw [hp.2, hq.2, List.flatMap_append]⟩
  intro t ht
  rcases List.mem_append.mp ht with ht | ht
  · exact hp.1 t ht
  · exact hq.1 t ht

/-- A label behind a listing takes the last trees as its operands. -/
theorem concat {p : List α} {rest operands : List (Tree α)} {label : α}
    (hp : Lists arity p (rest ++ operands)) (hlength : operands.length = arity label) :
    Lists arity (p ++ [label]) (rest ++ [.node label operands]) := by
  constructor
  · intro t ht
    rcases List.mem_append.mp ht with ht | ht
    · exact hp.1 t (List.mem_append_left _ ht)
    · rw [List.mem_singleton.mp ht]
      exact .node hlength fun t ht => hp.1 t (List.mem_append_right _ ht)
  · rw [hp.2, List.flatMap_append, List.flatMap_append, List.append_assoc]
    simp

/-- The last label of a listing stands at the root of the last tree, and without it the operands
of that tree are listed in its place. -/
theorem of_concat {p : List α} {label : α} {ts : List (Tree α)}
    (h : Lists arity (p ++ [label]) ts) :
    ∃ rest operands, ts = rest ++ [.node label operands] ∧ operands.length = arity label ∧
      Lists arity p (rest ++ operands) := by
  obtain ⟨hranked, hlabels⟩ := h
  rcases List.eq_nil_or_concat ts with rfl | ⟨rest, ⟨root, operands⟩, rfl⟩
  · simp at hlabels
  · rw [List.concat_eq_append] at hranked hlabels
    rw [List.flatMap_append, List.flatMap_singleton, Tree.postorder_node, ← List.append_assoc]
      at hlabels
    obtain ⟨hp, hroot⟩ := List.append_inj' hlabels rfl
    cases hroot
    cases hranked (.node label operands) (by simp) with
    | node hlength hoperands =>
      refine ⟨rest, operands, by simp, hlength, ?_, by rw [hp, List.flatMap_append]⟩
      intro t ht
      rcases List.mem_append.mp ht with ht | ht
      · exact hranked t (List.mem_append_left _ ht)
      · exact hoperands t ht

/-- The front of a listing lists trees too. -/
theorem of_append {p q : List α} {ts : List (Tree α)} (h : Lists arity (p ++ q) ts) :
    ∃ us, Lists arity p us := by
  induction q using List.reverseRecOn generalizing ts with
  | nil => exact ⟨ts, by simpa using h⟩
  | append_singleton q label ih =>
    rw [← List.append_assoc] at h
    obtain ⟨rest, operands, -, -, hfront⟩ := of_concat h
    exact ih hfront

/-- A list of labels lists the trees of one forest at most. -/
theorem unique {p : List α} {ts us : List (Tree α)} (ht : Lists arity p ts)
    (hu : Lists arity p us) : ts = us := by
  induction p using List.reverseRecOn generalizing ts us with
  | nil =>
    have hempty : ∀ vs : List (Tree α), Lists arity [] vs → vs = [] := by
      intro vs hvs
      cases vs with
      | nil => rfl
      | cons v vs =>
        have hnil := hvs.2
        rw [List.flatMap_cons] at hnil
        exact absurd (List.append_eq_nil_iff.mp hnil.symm).1 v.postorder_ne_nil
    rw [hempty ts ht, hempty us hu]
  | append_singleton p label ih =>
    obtain ⟨rest, operands, rfl, hlength, hfront⟩ := of_concat ht
    obtain ⟨rest', operands', rfl, hlength', hfront'⟩ := of_concat hu
    have hsame := ih hfront hfront'
    obtain ⟨rfl, rfl⟩ := List.append_inj' hsame (by rw [hlength, hlength'])
    rfl

/-- The trees that a list of labels lists, if it lists any. -/
def forest? (arity : α → Nat) (labels : List α) : Option (List (Tree α)) :=
  labels.foldlM (fun ts label =>
    if arity label ≤ ts.length then
      some (ts.take (ts.length - arity label) ++ [.node label (ts.drop (ts.length - arity label))])
    else none) []

theorem forest?_eq_some_iff {p : List α} {ts : List (Tree α)} :
    forest? arity p = some ts ↔ Lists arity p ts := by
  induction p using List.reverseRecOn generalizing ts with
  | nil =>
    constructor
    · rintro ⟨⟩
      exact nil
    · intro h
      rw [h.unique nil]
      rfl
  | append_singleton p label ih =>
    rw [forest?, List.foldlM_append]
    constructor
    · intro h
      obtain ⟨us, hus, hlast⟩ := Option.bind_eq_some_iff.mp h
      have hfront := ih.mp hus
      by_cases hle : arity label ≤ us.length
      · simp only [List.foldlM_cons, List.foldlM_nil, if_pos hle] at hlast
        cases hlast
        refine concat (by rwa [List.take_append_drop]) ?_
        rw [List.length_drop]
        omega
      · simp [if_neg hle] at hlast
    · intro h
      obtain ⟨rest, operands, rfl, hlength, hfront⟩ := h.of_concat
      have hus := ih.mpr hfront
      rw [forest?] at hus
      rw [hus]
      simp [hlength]

/-- What the front of a listing lists is written in the same order as in the whole. -/
theorem written_sublist {isInfix : α → Bool} {p q : List α} {ts us : List (Tree α)}
    (hp : Lists arity p ts) (hpq : Lists arity (p ++ q) us) :
    (ts.flatMap (Tree.written isInfix)).Sublist (us.flatMap (Tree.written isInfix)) := by
  induction q using List.reverseRecOn generalizing us with
  | nil =>
    rw [List.append_nil] at hpq
    rw [hp.unique hpq]
  | append_singleton q label ih =>
    rw [← List.append_assoc] at hpq
    obtain ⟨rest, operands, rfl, -, hfront⟩ := hpq.of_concat
    refine (ih hfront).trans ?_
    rw [List.flatMap_append, List.flatMap_append, List.flatMap_singleton]
    exact (Tree.flatMap_written_sublist isInfix label operands).append_left _

end Lists

end Formula
