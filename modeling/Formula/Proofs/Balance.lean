import Formula.Proofs.Longest
import Formula.Proofs.Passage
import Formula.Proofs.Places

/-!
# Parentheses of a text

No piece but a parenthesis holds one. So behind every piece as many parentheses are open as the
characters before leave open, and a scan that fails for a parenthesis names the first character that
closes none, or the end of a text that leaves some open.
-/

namespace Formula

namespace Text

/-- Some front of the characters closes more parentheses than it opens. -/
def Overcloses (cs : List Char) : Prop :=
  ∃ front, front <+: cs ∧ front.count '(' < front.count ')'

/-- No front of the characters closes more parentheses than it opens, and so many stay open. -/
structure LeavesOpen (depth : Nat) (cs : List Char) : Prop where
  covered : ¬Overcloses cs
  count_eq : cs.count '(' = depth + cs.count ')'

/-- What stands in front of the first parenthesis that closes none. -/
structure FirstExcess (cs front : List Char) : Prop where
  balanced : LeavesOpen 0 front
  closes : front ++ [')'] <+: cs

variable {cs part front back : List Char} {depth next : Nat}

theorem Overcloses.mono (h : Overcloses front) (hfront : front <+: cs) : Overcloses cs := by
  obtain ⟨excess, hexcess, hlt⟩ := h
  exact ⟨excess, hexcess.trans hfront, hlt⟩

theorem leavesOpen_nil : LeavesOpen 0 [] := by
  refine ⟨?_, rfl⟩
  rintro ⟨front, hfront, hlt⟩
  rw [List.prefix_nil.mp hfront] at hlt
  exact absurd hlt (by decide)

namespace LeavesOpen

/-- More characters leave open what they open, if they close no more than is open. -/
theorem append (h : LeavesOpen depth cs)
    (hcovered : ∀ first, first <+: part → first.count ')' ≤ depth + first.count '(')
    (hcount : depth + part.count '(' = next + part.count ')') : LeavesOpen next (cs ++ part) := by
  have heq := h.count_eq
  constructor
  · rintro ⟨front, ⟨back, hsplit⟩, hlt⟩
    rcases List.append_eq_append_iff.mp hsplit with ⟨more, hcs, -⟩ | ⟨more, rfl, hpart⟩
    · exact h.covered ⟨front, ⟨more, hcs.symm⟩, hlt⟩
    · have hle := hcovered more ⟨back, hpart.symm⟩
      simp only [List.count_append] at hlt
      omega
  · simp only [List.count_append]
    omega

theorem append_other (h : LeavesOpen depth cs) (hopen : '(' ∉ part) (hclose : ')' ∉ part) :
    LeavesOpen depth (cs ++ part) := by
  refine h.append (fun first hfirst => ?_) ?_
  · rw [List.count_eq_zero.mpr fun hmem => hclose (hfirst.subset hmem)]
    exact Nat.zero_le _
  · rw [List.count_eq_zero.mpr hopen, List.count_eq_zero.mpr hclose]

theorem append_open (h : LeavesOpen depth cs) : LeavesOpen (depth + 1) (cs ++ ['(']) := by
  refine h.append (fun first hfirst => ?_) rfl
  rw [List.count_eq_zero.mpr fun hmem => absurd (hfirst.subset hmem) (by decide)]
  exact Nat.zero_le _

theorem append_close (h : LeavesOpen depth cs) (hdepth : depth ≠ 0) :
    LeavesOpen (depth - 1) (cs ++ [')']) := by
  refine h.append (fun first hfirst => ?_) ?_
  · have hle := hfirst.sublist.count_le ')'
    rw [List.count_singleton_self] at hle
    omega
  · show depth = depth - 1 + 1
    omega

/-- Where no parenthesis is open, one more that closes is too many. -/
theorem overcloses_append_close (h : LeavesOpen 0 cs) : Overcloses (cs ++ [')']) := by
  refine ⟨cs ++ [')'], List.prefix_rfl, ?_⟩
  have heq := h.count_eq
  have hopen : [')'].count '(' = 0 := rfl
  have hclose : [')'].count ')' = 1 := rfl
  rw [List.count_append, List.count_append]
  omega

end LeavesOpen

/-- Characters that close too much have a first parenthesis that closes none. -/
theorem Overcloses.exists_firstExcess (h : Overcloses cs) : ∃ front, FirstExcess cs front := by
  induction cs using List.reverseRecOn with
  | nil => exact absurd h leavesOpen_nil.covered
  | append_singleton init c ih =>
    by_cases hinit : Overcloses init
    · obtain ⟨front, hfirst⟩ := ih hinit
      exact ⟨front, hfirst.balanced, hfirst.closes.trans (List.prefix_append init [c])⟩
    · obtain ⟨front, hfront, hlt⟩ := h
      rcases List.prefix_concat_iff.mp hfront with rfl | hbefore
      · have hle : init.count ')' ≤ init.count '(' :=
          Nat.not_lt.mp fun hmore => hinit ⟨init, List.prefix_rfl, hmore⟩
        rw [List.count_append, List.count_append] at hlt
        obtain rfl : c = ')' := by
          by_contra hother
          have hnone : [c].count ')' = 0 := List.count_eq_zero.mpr (by simpa using Ne.symm hother)
          omega
        have hopen : [')'].count '(' = 0 := rfl
        have hclose : [')'].count ')' = 1 := rfl
        exact ⟨init, ⟨hinit, by omega⟩, List.prefix_rfl⟩
      · exact absurd ⟨front, hbefore, hlt⟩ hinit

theorem FirstExcess.overcloses (h : FirstExcess cs front) : Overcloses cs :=
  h.balanced.overcloses_append_close.mono h.closes

/-- A place up to which nothing closes too much, and where no parenthesis closes, is in front of the
first one that does. -/
theorem FirstExcess.byteLength_lt {c : Char} {excess : List Char} (h : FirstExcess cs excess)
    (hsplit : cs = front ++ c :: back) (hfront : ¬Overcloses front) (hc : c ≠ ')') :
    byteLength front < byteLength excess := by
  obtain ⟨rest, hrest⟩ := h.closes
  rw [List.append_assoc, List.singleton_append, hsplit] at hrest
  rcases List.append_eq_append_iff.mp hrest with ⟨more, rfl, hback⟩ | ⟨more, rfl, hmore⟩
  · cases more with
    | nil => exact absurd (List.cons.inj hback).1.symm hc
    | cons d more =>
      obtain ⟨rfl, -⟩ := List.cons.inj hback
      refine absurd (h.balanced.overcloses_append_close.mono ?_) hfront
      exact ⟨more, by simp⟩
  · cases more with
    | nil => exact absurd (List.cons.inj hmore).1 hc
    | cons d more =>
      have hwidth := byteLength_pos (List.cons_ne_nil d more)
      rw [byteLength_append]
      omega

/-- Folding letters counts other characters as before. -/
theorem count_map_toLower {c : Char} (hc : c.toNat < 65) (cs : List Char) :
    (cs.map Char.toLower).count c = cs.count c := by
  rw [List.count, List.countP_map]
  refine List.countP_congr fun d _ => ?_
  simp only [Function.comp_apply, beq_iff_eq]
  constructor
  · rintro rfl
    exact (Lexeme.toLower_eq_of_code (.inl (by omega))).symm
  · rintro rfl
    exact Lexeme.toLower_eq_self (.inl hc)

theorem LeavesOpen.of_map_toLower (h : LeavesOpen depth (cs.map Char.toLower)) :
    LeavesOpen depth cs := by
  constructor
  · rintro ⟨front, hfront, hlt⟩
    refine h.covered ⟨front.map Char.toLower, hfront.map _, ?_⟩
    rwa [count_map_toLower (by decide), count_map_toLower (by decide)]
  · have heq := h.count_eq
    rwa [count_map_toLower (by decide), count_map_toLower (by decide)] at heq

end Text

open Text

/-- No piece but a parenthesis holds one. -/
theorem Piece.Fits.not_mem {last : Preceding} {p : Piece} (h : p.Fits last)
    (hopen : p.shape ≠ .parenOpen) (hclose : p.shape ≠ .parenClose) :
    '(' ∉ p.lexeme ∧ ')' ∉ p.lexeme := by
  have hsolid : Lexeme.IsSolid p.lexeme → '(' ∉ p.lexeme ∧ ')' ∉ p.lexeme := fun h =>
    ⟨fun hmem => absurd (h _ hmem) (by decide), fun hmem => absurd (h _ hmem) (by decide)⟩
  rcases p with ⟨shape, lexeme, rest⟩
  cases shape with
  | blank => exact ⟨fun hmem => absurd (h _ hmem) (by decide),
      fun hmem => absurd (h _ hmem) (by decide)⟩
  | parenOpen => exact absurd rfl hopen
  | parenClose => exact absurd rfl hclose
  | separator =>
    obtain ⟨hlexeme, -⟩ := h
    dsimp only at hlexeme ⊢
    rw [hlexeme]
    decide
  | infixOp => exact hsolid (Lexeme.isSolid_of_mem_infixSpellings h.1)
  | number => exact hsolid h.1.isSolid
  | name =>
    rcases h with hbang | hidentifier | hsign
    · exact hsolid (Lexeme.IsName.isSolid (.inl hbang))
    · exact hsolid (Lexeme.IsName.isSolid (.inr (.inr hidentifier)))
    · exact hsolid (Lexeme.IsName.isSolid (.inr (.inl hsign.1)))

namespace Scanner

variable {resolver : Option Resolver} {s t next : Scanner} {p : Piece} {cs front back : List Char}
  {scope : Scope}

/-- Behind a piece as many parentheses are open as the characters leave open. -/
theorem Takes.leavesOpen (hfits : p.Fits s.last) (h : Takes resolver s p next)
    (hfront : LeavesOpen s.depth front) : LeavesOpen next.depth (front ++ p.lexeme) := by
  have hother : p.shape ≠ .parenOpen → p.shape ≠ .parenClose →
      LeavesOpen s.depth (front ++ p.lexeme) := fun hopen hclose =>
    hfront.append_other (hfits.not_mem hopen hclose).1 (hfits.not_mem hopen hclose).2
  cases h with
  | parenOpen hshape =>
    rw [Piece.Fits, hshape] at hfits
    rw [hfits]
    exact hfront.append_open
  | parenClose hshape hdepth =>
    rw [Piece.Fits, hshape] at hfits
    rw [hfits]
    exact hfront.append_close hdepth
  | _ hshape => exact hother (by simp [hshape]) (by simp [hshape])

/-- Wherever the scan comes, as many parentheses are open as the characters before leave open. -/
theorem Reaches.exists_leavesOpen (h : Reaches resolver (.start scope) cs t back) :
    ∃ front, cs = front ++ back ∧ t.index = byteLength front ∧ LeavesOpen t.depth front := by
  refine h.invariant (P := fun t back =>
    ∃ front, cs = front ++ back ∧ t.index = byteLength front ∧ LeavesOpen t.depth front) ?_ ?_
  · exact ⟨[], rfl, rfl, leavesOpen_nil⟩
  · rintro u rest p next - ⟨front, hsplit, hindex, hopen⟩ hpiece htakes
    refine ⟨front ++ p.lexeme, ?_, ?_, htakes.leavesOpen (Piece.fits_of_next? hpiece) hopen⟩
    · rw [hsplit, List.append_assoc, (Piece.next?_append hpiece).1]
    · rw [htakes.index_eq, hindex, byteLength_append]

end Scanner

/-- A scan ends behind some front of the text that leaves open as many parentheses as are open in
the scan. -/
theorem exists_ends_of_scan (text : String) (scope : Scope) (resolver : Option Resolver) :
    ∃ t front back, text.toList = front ++ back ∧ t.index = byteLength front ∧
      LeavesOpen t.depth front ∧
      Scanner.Ends resolver t (back.map Char.toLower) (scan text scope resolver) := by
  obtain ⟨t, folded, hreaches, hends⟩ :=
    Scanner.exists_reaches resolver (.start scope) (foldCase text).toList
  obtain ⟨before, hsplit, hindex, hopen⟩ := hreaches.exists_leavesOpen
  rw [toList_foldCase] at hsplit
  obtain ⟨front, back, htext, rfl, rfl⟩ := List.map_eq_append_iff.mp hsplit
  rw [byteLength_map_toLower] at hindex
  exact ⟨t, front, back, htext, hindex, hopen.of_map_toLower, hends⟩

/-- No name begins with a parenthesis. -/
theorem Piece.exists_head_of_name {last : Preceding} {cs name rest : List Char}
    (h : next? last (cs.map Char.toLower) = some ⟨.name, name, rest⟩) :
    ∃ c more, cs = c :: more ∧ c ≠ ')' := by
  cases cs with
  | nil => cases h
  | cons c more =>
    refine ⟨c, more, rfl, ?_⟩
    rintro rfl
    cases h

/-- What a scan comes to, as far as the parentheses of the text go. -/
inductive Scan.Settles (text : String) (outcome : Except Fault (List Token)) : Prop where
  | closed {tokens : List Token} (hopen : LeavesOpen 0 text.toList) (h : outcome = .ok tokens)
  | unclosed {depth : Nat} (hdepth : depth ≠ 0) (hopen : LeavesOpen depth text.toList)
      (h : outcome = .error ⟨.unmatchedParen, text.utf8ByteSize, ""⟩)
  | unopened {front : List Char} (hfirst : FirstExcess text.toList front)
      (h : outcome = .error ⟨.unmatchedParen, byteLength front, ")"⟩)
  | elsewhere {front back : List Char} {c : Char} {fault : Fault}
      (hsplit : text.toList = front ++ c :: back) (hfront : ¬Overcloses front) (hc : c ≠ ')')
      (hkind : fault.kind = .unrecognized ∨ fault.kind = .undefinedName)
      (hindex : fault.index = byteLength front) (h : outcome = .error fault)

/-- Every scan comes to one of these. -/
theorem scan_settles (text : String) (scope : Scope) (resolver : Option Resolver) :
    Scan.Settles text (scan text scope resolver).outcome := by
  obtain ⟨t, front, back, htext, hindex, hopen, hends⟩ := exists_ends_of_scan text scope resolver
  have hwhole : back = [] → text.toList = front ∧ t.index = text.utf8ByteSize := by
    rintro rfl
    rw [List.append_nil] at htext
    exact ⟨htext, by rw [← byteLength_toList, htext, hindex]⟩
  generalize scan text scope resolver = ended at hends
  cases hends with
  | finished hcs hdepth =>
    obtain ⟨rfl, -⟩ := hwhole (List.map_eq_nil_iff.mp hcs)
    rw [hdepth] at hopen
    exact .closed hopen rfl
  | unclosed hcs hdepth =>
    obtain ⟨rfl, hend⟩ := hwhole (List.map_eq_nil_iff.mp hcs)
    refine .unclosed hdepth hopen ?_
    rw [Scanner.stop, hend]
  | unopened hcs hdepth =>
    obtain ⟨c, rest, rfl, hc, -⟩ := List.map_eq_cons_iff.mp hcs
    obtain rfl : c = ')' := by
      rw [← hc]
      exact (Lexeme.toLower_eq_of_code (by rw [hc]; decide)).symm
    rw [hdepth] at hopen
    refine .unopened ⟨hopen, rest, ?_⟩ (by rw [Scanner.stop, hindex])
    rw [htext, List.append_assoc]
    rfl
  | unrecognized hcs hpiece =>
    obtain ⟨c, rest, rfl, rfl, -⟩ := List.map_eq_cons_iff.mp hcs
    refine .elsewhere htext hopen.covered ?_ (.inl rfl) hindex rfl
    rintro rfl
    exact (Piece.head_of_next?_eq_none (hcs ▸ hpiece)).2.2 rfl
  | unknown hpiece =>
    obtain ⟨c, more, rfl, hc⟩ := Piece.exists_head_of_name hpiece
    exact .elsewhere htext hopen.covered hc (.inr rfl) hindex rfl
  | unanswered hpiece =>
    obtain ⟨c, more, rfl, hc⟩ := Piece.exists_head_of_name hpiece
    exact .elsewhere htext hopen.covered hc (.inr rfl) hindex rfl

namespace Scan.Settles

variable {text : String} {outcome : Except Fault (List Token)}

/-- Without a fault the parentheses of the text match. -/
theorem balanced {tokens : List Token} (h : Settles text outcome) (hok : outcome = .ok tokens) :
    LeavesOpen 0 text.toList := by
  subst hok
  cases h with
  | closed hopen => exact hopen
  | unclosed hdepth hopen h => cases h
  | unopened hfirst h => cases h
  | elsewhere hsplit hfront hc hkind hindex h => cases h

/-- Where the text closes too much, the first parenthesis that does is at fault, or what stands in
front of it. -/
theorem exists_excess (h : Settles text outcome) (hover : Overcloses text.toList) :
    ∃ front fault, FirstExcess text.toList front ∧ outcome = .error fault ∧
      (fault = ⟨.unmatchedParen, byteLength front, ")"⟩ ∨
        (fault.kind = .unrecognized ∨ fault.kind = .undefinedName) ∧
          fault.index < byteLength front) := by
  cases h with
  | closed hopen => exact absurd hover hopen.covered
  | unclosed hdepth hopen => exact absurd hover hopen.covered
  | unopened hfirst h => exact ⟨_, _, hfirst, h, .inl rfl⟩
  | elsewhere hsplit hfront hc hkind hindex h =>
    obtain ⟨excess, hfirst⟩ := hover.exists_firstExcess
    refine ⟨excess, _, hfirst, h, .inr ⟨hkind, ?_⟩⟩
    rw [hindex]
    exact hfirst.byteLength_lt hsplit hfront hc

/-- Where the text leaves some parenthesis open, its end is at fault, or what stands in front of
that. -/
theorem exists_unclosed (h : Settles text outcome) (hcovered : ¬Overcloses text.toList)
    (hlt : text.toList.count ')' < text.toList.count '(') :
    ∃ fault, outcome = .error fault ∧ (fault = ⟨.unmatchedParen, text.utf8ByteSize, ""⟩ ∨
      (fault.kind = .unrecognized ∨ fault.kind = .undefinedName) ∧
        fault.index < text.utf8ByteSize) := by
  cases h with
  | closed hopen =>
    have heq := hopen.count_eq
    omega
  | unclosed hdepth hopen h => exact ⟨_, h, .inl rfl⟩
  | unopened hfirst => exact absurd hfirst.overcloses hcovered
  | @elsewhere front back c fault hsplit hfront hc hkind hindex h =>
    refine ⟨fault, h, .inr ⟨hkind, ?_⟩⟩
    have hwidth := c.utf8Size_pos
    rw [hindex, ← byteLength_toList, hsplit, byteLength_append, byteLength_cons]
    omega

/-- Where the parentheses of the text match, none is at fault. -/
theorem kind_ne {fault : Fault} (h : Settles text outcome) (hopen : LeavesOpen 0 text.toList)
    (hfault : outcome = .error fault) : fault.kind ≠ .unmatchedParen := by
  subst hfault
  cases h with
  | closed hopen h => cases h
  | unclosed hdepth hmore =>
    have hcount := hopen.count_eq
    have hcountMore := hmore.count_eq
    omega
  | unopened hfirst => exact absurd hfirst.overcloses hopen.covered
  | elsewhere hsplit hfront hc hkind hindex h =>
    cases h
    rcases hkind with hkind | hkind <;> simp [hkind]

end Scan.Settles

/-- What the outcome of a scan says about the parentheses of the text is right, character by
character. A fault of another kind is in front of the one that they would give. -/
structure Scan.Diagnoses (text : String) (outcome : Except Fault (List Token)) : Prop where
  balanced : ∀ tokens, outcome = .ok tokens →
    ¬Overcloses text.toList ∧ text.toList.count '(' = text.toList.count ')'
  overclosed : Overcloses text.toList → ∃ front fault, FirstExcess text.toList front ∧
    outcome = .error fault ∧ (fault = ⟨.unmatchedParen, byteLength front, ")"⟩ ∨
      (fault.kind = .unrecognized ∨ fault.kind = .undefinedName) ∧
        fault.index < byteLength front)
  unclosed : ¬Overcloses text.toList → text.toList.count ')' < text.toList.count '(' →
    ∃ fault, outcome = .error fault ∧ (fault = ⟨.unmatchedParen, text.utf8ByteSize, ""⟩ ∨
      (fault.kind = .unrecognized ∨ fault.kind = .undefinedName) ∧
        fault.index < text.utf8ByteSize)
  matched : ¬Overcloses text.toList → text.toList.count '(' = text.toList.count ')' →
    ∀ fault, outcome = .error fault → fault.kind ≠ .unmatchedParen

/-- Every scan says of the parentheses of its text what is right, whatever the scope and the
resolver know. -/
theorem scan_diagnoses (text : String) (scope : Scope) (resolver : Option Resolver) :
    Scan.Diagnoses text (scan text scope resolver).outcome := by
  have hsettles := scan_settles text scope resolver
  constructor
  · intro tokens hok
    have hopen := hsettles.balanced hok
    exact ⟨hopen.covered, by simpa using hopen.count_eq⟩
  · exact hsettles.exists_excess
  · exact hsettles.exists_unclosed
  · intro hcovered hcount fault
    exact hsettles.kind_ne ⟨hcovered, by simpa using hcount⟩

/-- The second parenthesis that closes stands behind six bytes. It is at fault if the resolver knows
the name in front of it, which is at fault otherwise. -/
theorem scan_diagnoses_name :
    ∃ front, FirstExcess "\u00a0(a) )2".toList front ∧ byteLength front = 6 ∧
      (scan "\u00a0(a) )2" .builtin (some fun _ => some (.constant 0 4))).outcome =
        .error ⟨.unmatchedParen, 6, ")"⟩ ∧
      (scan "\u00a0(a) )2" .builtin none).outcome = .error ⟨.undefinedName, 3, "a"⟩ := by
  have hover : Overcloses "\u00a0(a) )2".toList :=
    ⟨['\u00a0', '(', 'a', ')', ' ', ')'], ⟨['2'], rfl⟩, by decide⟩
  have hclose : (scan "\u00a0(a) )2" .builtin (some fun _ => some (.constant 0 4))).outcome =
      .error ⟨.unmatchedParen, 6, ")"⟩ := by
    decide +kernel
  have hname : (scan "\u00a0(a) )2" .builtin none).outcome = .error ⟨.undefinedName, 3, "a"⟩ := by
    decide +kernel
  obtain ⟨front, fault, hfirst, hfault, hcases⟩ := (scan_diagnoses _ _ _).overclosed hover
  cases hclose.symm.trans hfault
  refine ⟨front, hfirst, ?_, hclose, hname⟩
  rcases hcases with hplace | ⟨hkind, -⟩
  · exact (congrArg Fault.index hplace).symm
  · simp at hkind

end Formula
