import Formula.Text.Bytes

/-!
# Case folding

Names and expressions are compared without regard to the case of ASCII letters. Folding maps the
letters `A` to `Z` to `a` to `z` and keeps every other character, so positions do not move.
-/

namespace Formula.Text

/-- The text with its ASCII capitals made small. -/
def foldCase (s : String) : String :=
  s.map Char.toLower

@[simp] theorem toList_foldCase (s : String) :
    (foldCase s).toList = s.toList.map Char.toLower :=
  String.toList_map

/-- A small letter stays as it is, so folding twice is folding once. -/
theorem toLower_toLower (c : Char) : c.toLower.toLower = c.toLower := by
  unfold Char.toLower
  split
  · rename_i hcapital
    split
    · rename_i hagain
      exfalso
      simp only [ge_iff_le, UInt32.le_iff_toNat_le, UInt32.toNat_add] at hcapital hagain
      simp at *
      omega
    · rfl
  · rfl

theorem foldCase_foldCase (s : String) : foldCase (foldCase s) = foldCase s := by
  apply String.toList_injective
  rw [toList_foldCase, toList_foldCase, List.map_map]
  exact List.map_congr_left fun c _ => toLower_toLower c

/-- Folding changes no character's width. -/
theorem utf8Size_toLower (c : Char) : c.toLower.utf8Size = c.utf8Size := by
  unfold Char.toLower
  split
  · rename_i hcapital
    simp only [ge_iff_le, UInt32.le_iff_toNat_le] at hcapital
    simp only [Char.utf8Size, UInt32.le_iff_toNat_le, UInt32.toNat_add]
    simp at *
    rw [if_pos (by omega), if_pos (by omega)]
  · rfl

/-- Positions in the folded text are positions in the text itself. -/
theorem byteLength_map_toLower (cs : List Char) :
    byteLength (cs.map Char.toLower) = byteLength cs := by
  induction cs with
  | nil => rfl
  | cons c cs ih => simp [utf8Size_toLower, ih]

end Formula.Text
