import Formula.Text.Grapheme

/-!
# Rubbing out

A backspace in a line takes back the grapheme before it, as far as one is left. A line without
backspaces stays as it is.
-/

namespace Formula.Text

/-- Takes up a grapheme behind the ones kept so far, the last one first. -/
def keepGrapheme (kept : List (List Char)) (grapheme : List Char) : List (List Char) :=
  if grapheme = ['\x08'] then kept.tail else grapheme :: kept

/-- The line with every backspace carried out. -/
def rubout (line : String) : String :=
  String.ofList ((graphemes line.toList).foldl keepGrapheme []).reverse.flatten

theorem foldl_keepGrapheme {gs : List (List Char)} (kept : List (List Char))
    (h : ['\x08'] ∉ gs) : gs.foldl keepGrapheme kept = gs.reverse ++ kept := by
  induction gs generalizing kept with
  | nil => rfl
  | cons g gs ih =>
    have hne : g ≠ ['\x08'] := fun heq => h (heq ▸ List.mem_cons_self)
    have hrest : ['\x08'] ∉ gs := fun hmem => h (List.mem_cons_of_mem _ hmem)
    rw [List.foldl_cons, keepGrapheme, if_neg hne, ih _ hrest, List.reverse_cons,
      List.append_assoc, List.singleton_append]

/-- Without a backspace nothing is taken back. -/
theorem rubout_eq_self {line : String} (h : '\x08' ∉ line.toList) : rubout line = line := by
  have hgraphemes : ['\x08'] ∉ graphemes line.toList := by
    intro hmem
    apply h
    rw [← flatten_graphemes line.toList]
    exact List.mem_flatten.mpr ⟨_, hmem, List.mem_singleton_self _⟩
  unfold rubout
  rw [foldl_keepGrapheme [] hgraphemes, List.append_nil, List.reverse_reverse,
    flatten_graphemes, String.ofList_toList]

end Formula.Text
