import Formula.Proofs.Reading
import Formula.Proofs.Tree
import Mathlib.Data.List.Nodup

/-!
# Programs and written order

A program lists the operands before their operator, a text has an infix operator behind its first
operand and any other operator before all of its operands. An accepted program is the one that was
written exactly as far as the text in reach of each operator makes up its right operands.
-/

namespace Formula

/-- Whether an instruction is written behind its first operand. -/
def Instruction.isInfix : Instruction → Bool
  | .number _ => false
  | .operator op => (Precedence.ofInfix? op.name).isSome

/-- How many operands of a token are written behind it. -/
def Token.rightOperands (scope : Scope) (t : Token) : Nat :=
  if t.kind = .infixOp then t.operands scope - 1 else t.operands scope

/-- Read alone, the tokens list exactly the right operands of the operator before them. -/
def FindsOperands (scope : Scope) (t : Token) (tokens : List Token) : Prop :=
  ∃ p ts, Program.ofTokensUnchecked scope tokens = .ok p ∧ Lists Instruction.arity p ts ∧
    ts.length = t.rightOperands scope

/-- Whether the tokens list the right operands, by building the trees. -/
def findsOperands (scope : Scope) (t : Token) (tokens : List Token) : Bool :=
  match Program.ofTokensUnchecked scope tokens with
  | .ok p => (Lists.forest? Instruction.arity p).any (·.length = t.rightOperands scope)
  | .error _ => false

theorem findsOperands_eq_true_iff {scope : Scope} {t : Token} {tokens : List Token} :
    findsOperands scope t tokens = true ↔ FindsOperands scope t tokens := by
  constructor
  · intro h
    unfold findsOperands at h
    split at h
    · rename_i p hp
      obtain ⟨ts, hts, hlength⟩ := (Option.any_eq_true _ _).mp h
      exact ⟨p, ts, hp, Lists.forest?_eq_some_iff.mp hts, of_decide_eq_true hlength⟩
    · cases h
  · rintro ⟨p, ts, hp, hts, hlength⟩
    rw [findsOperands, hp]
    simp [Lists.forest?_eq_some_iff.mpr hts, hlength]

instance (scope : Scope) (t : Token) (tokens : List Token) :
    Decidable (FindsOperands scope t tokens) :=
  decidable_of_iff _ findsOperands_eq_true_iff

/-- What is in reach of each operator is exactly its right operands. -/
def OperandsInReach (scope : Scope) : List Token → Prop
  | [] => True
  | t :: rest =>
    (∀ precedence ∈ t.precedence?, FindsOperands scope t (reach precedence.rank 0 rest)) ∧
      OperandsInReach scope rest

instance decidableOperandsInReach (scope : Scope) :
    (tokens : List Token) → Decidable (OperandsInReach scope tokens)
  | [] => .isTrue trivial
  | _ :: rest =>
    have := decidableOperandsInReach scope rest
    inferInstanceAs (Decidable (_ ∧ _))

/-- Only an infix token has the spelling of an infix operator. -/
def Token.IsPlain (t : Token) : Prop :=
  t.kind = .prefixOp → Precedence.ofInfix? t.lexeme = none

section Segments

variable {scope : Scope} {tokens back within inner : List Token} {t : Token}

/-- Behind tokens that close their parentheses and stop the reaches that come so far, the operators
have what they had. -/
theorem operandsInReach_append_iff {depth : Nat} (h : Closes depth tokens)
    (hstops : ∀ front t rest precedence, tokens = front ++ t :: rest →
      t.precedence? = some precedence → Closes 0 rest → Stops precedence.rank back) :
    OperandsInReach scope (tokens ++ back) ↔
      OperandsInReach scope tokens ∧ OperandsInReach scope back := by
  induction tokens generalizing depth with
  | nil => simp [OperandsInReach]
  | cons t rest ih =>
    have hrest := ih h.2 fun front u more precedence hsplit =>
      hstops (t :: front) u more precedence (by rw [hsplit, List.cons_append])
    have hreach : ∀ precedence, t.precedence? = some precedence →
        reach precedence.rank 0 (rest ++ back) = reach precedence.rank 0 rest := by
      intro precedence hprecedence
      have hcloses := h.2
      rw [Token.depthBehind_of_precedence? hprecedence] at hcloses
      refine hcloses.reach_append (Nat.zero_le _) fun hdepth => ?_
      rw [← hdepth] at hcloses
      exact hstops [] t rest precedence rfl hprecedence hcloses
    rw [List.cons_append, OperandsInReach, OperandsInReach, hrest, and_assoc]
    refine and_congr_left' (forall₂_congr fun precedence hprecedence => ?_)
    rw [hreach precedence hprecedence]

/-- An operator outside of parentheses in a clear text does not stop the reach. -/
theorem Clear.releases_eq_false {rank : Nat} {front rest : List Token} {precedence : Precedence}
    (hclear : Clear rank (front ++ t :: rest)) (hcloses : Closes 0 (front ++ t :: rest))
    (hprecedence : t.precedence? = some precedence) (hrest : Closes 0 rest) :
    t.releases rank = false := by
  suffices hdepth : ∀ depth, Closes depth (front ++ t :: rest) →
      reach rank depth (front ++ t :: rest) = front ++ t :: rest → t.releases rank = false from
    hdepth 0 hcloses hclear
  clear hclear hcloses
  induction front with
  | nil =>
    intro depth hcloses hclear
    have hbehind := hcloses.2
    rw [Token.depthBehind_of_precedence? hprecedence] at hbehind
    have hdepth := hbehind.depth_eq hrest
    rw [List.nil_append, reach] at hclear
    by_cases hreleases : t.releases rank = true
    · simp [hdepth, hreleases] at hclear
    · simpa using hreleases
  | cons u front ih =>
    intro depth hcloses hclear
    rw [List.cons_append, reach] at hclear
    by_cases hstop : depth = 0 ∧ u.releases rank = true
    · simp [hstop] at hclear
    · rw [if_neg hstop] at hclear
      exact ih _ hcloses.2 (List.cons.inj hclear).2

theorem operandsInReach_operator_iff {precedence : Precedence}
    (hprecedence : t.precedence? = some precedence) (hwithin : Closes 0 within)
    (hclear : Clear precedence.rank within) (hstops : Stops precedence.rank back) :
    OperandsInReach scope (t :: (within ++ back)) ↔
      FindsOperands scope t within ∧ OperandsInReach scope within ∧
        OperandsInReach scope back := by
  have hreach : reach precedence.rank 0 (within ++ back) = within :=
    (hwithin.reach_append (Nat.le_refl 0) fun _ => hstops).trans hclear
  have happend : OperandsInReach scope (within ++ back) ↔
      OperandsInReach scope within ∧ OperandsInReach scope back := by
    refine operandsInReach_append_iff hwithin ?_
    rintro front u rest other rfl hother hrest v more rfl
    have hkeeps := hclear.releases_eq_false hwithin hother hrest
    rw [u.releases_of_precedence? hother] at hkeeps
    exact Token.releases_mono (hstops v more rfl) (Precedence.le_rank_of_yields_eq_false hkeeps)
  rw [OperandsInReach, happend, hprecedence]
  simp [hreach]

theorem operandsInReach_group_iff {opening closing : Token} (hopening : opening.kind = .parenOpen)
    (hclosing : closing.kind = .parenClose) (hinner : Closes 0 inner) :
    OperandsInReach scope (opening :: (inner ++ closing :: back)) ↔
      OperandsInReach scope inner ∧ OperandsInReach scope back := by
  have happend : OperandsInReach scope (inner ++ closing :: back) ↔
      OperandsInReach scope inner ∧ OperandsInReach scope (closing :: back) := by
    refine operandsInReach_append_iff hinner ?_
    rintro front u rest other - - - v more hv
    cases hv
    exact Token.releases_parenClose hclosing _
  rw [OperandsInReach, happend, OperandsInReach]
  simp [Token.precedence?, hopening, hclosing]

end Segments

/-- A name is spelled differently from every infix operator. -/
theorem Precedence.ofInfix?_nameLexeme {last : Preceding} {p : Piece} (h : p.Fits last)
    (hshape : p.shape = .name) :
    ofInfix? (Scanner.nameLexeme (String.ofList p.lexeme)) = none := by
  have hrows : ∀ row ∈ table, row.1 ≠ "!" ∧ row.1.toList.any Char.isLower = false := by decide
  have hname : Scanner.nameLexeme (String.ofList p.lexeme) = "!" ∨
      ∃ c ∈ (Scanner.nameLexeme (String.ofList p.lexeme)).toList, c.isLower = true := by
    simp only [Piece.Fits, hshape] at h
    rcases h with hbang | hidentifier | ⟨hsign, -⟩
    · rw [hbang]
      exact .inl rfl
    · obtain ⟨c, tail, heq, hlower⟩ := hidentifier.exists_head
      rw [heq]
      right
      unfold Scanner.nameLexeme
      split
      · exact ⟨'u', by decide, by decide⟩
      · exact ⟨c, by simp, hlower⟩
    · rw [hsign]
      exact .inr ⟨'u', by decide, by decide⟩
  rw [ofInfix?, List.lookup_eq_none_iff]
  intro row hrow
  rw [bne_iff_ne]
  intro heq
  obtain ⟨hnot, hletters⟩ := hrows row hrow
  rw [heq] at hname
  rcases hname with hbang | ⟨c, hc, hlower⟩
  · exact hnot hbang
  · rw [List.any_eq_true.mpr ⟨c, hc, hlower⟩] at hletters
    cases hletters

/-- The names among the tokens of a scan are spelled differently from every infix operator. -/
theorem Scanner.Scans.isPlain {resolver : Option Resolver} {scope : Scope} {final : Scanner}
    {cs : List Char} (h : Scanner.Scans resolver (.start scope) cs final) :
    ∀ t ∈ final.tokens.toList, t.IsPlain := by
  refine h.invariant (P := fun s _ => ∀ t ∈ s.tokens.toList, t.IsPlain) ?_ (by simp [start])
  intro s cs p next hs hpiece htakes
  have hemit : ∀ t : Token, t.IsPlain → ∀ u ∈ (s.tokens.push t).toList, u.IsPlain := by
    intro t ht u hu
    rw [Array.toList_push] at hu
    rcases List.mem_append.mp hu with hu | hu
    · exact hs u hu
    · rwa [List.mem_singleton.mp hu]
  cases htakes
  case blank => exact hs
  case known hshape hentry =>
    exact hemit _ fun _ => Precedence.ofInfix?_nameLexeme (Piece.fits_of_next? hpiece) hshape
  case learned hshape hunknown hresolver hentry =>
    exact hemit _ fun _ => Precedence.ofInfix?_nameLexeme (Piece.fits_of_next? hpiece) hshape
  all_goals exact hemit _ (by simp [Token.IsPlain])

namespace Token

variable {scope : Scope} {t : Token} {precedence : Precedence} {entry : Entry}

theorem operands_eq (hprecedence : t.precedence? = some precedence)
    (hentry : scope.lookup t.lexeme = some entry) : t.operands scope = entry.arity.toNat := by
  rw [operands, instruction?_operator hprecedence hentry]
  rfl

/-- The right operands of a token are those that its instruction has written behind it. -/
theorem rightOperands_eq (hplain : t.IsPlain) (hprecedence : t.precedence? = some precedence)
    (hentry : scope.lookup t.lexeme = some entry) :
    t.rightOperands scope =
      if (Instruction.operator ⟨t.lexeme, entry⟩).isInfix then entry.arity.toNat - 1
      else entry.arity.toNat := by
  rw [rightOperands, operands_eq hprecedence hentry, Instruction.isInfix]
  unfold precedence? at hprecedence
  split at hprecedence
  · rename_i hkind
    rw [if_pos hkind, hprecedence]
    rfl
  · rename_i hkind
    rw [hplain hkind]
    simp [hkind]
  · cases hprecedence

end Token

/-- The trees that a reading adds to a forest are written as the text, where the operators have
their operands in reach. -/
theorem Reading.written_eq {scope : Scope} {tokens : List Token} {p : Program}
    (h : Reading scope tokens p) (hplain : ∀ t ∈ tokens, t.IsPlain)
    (hreach : OperandsInReach scope tokens) {o : Program} {forest ts : List (Tree Instruction)}
    (hforest : Lists Instruction.arity o forest) (hts : Lists Instruction.arity (o ++ p) ts) :
    ts.flatMap (Tree.written Instruction.isInfix) =
      forest.flatMap (Tree.written Instruction.isInfix) ++
        tokens.filterMap (Token.instruction? scope) := by
  induction h generalizing o forest ts with
  | nil =>
    rw [List.append_nil] at hts
    simp [hts.unique hforest]
  | @number t rest value p hkind hvalue hrest ih =>
    have hleaf : Lists Instruction.arity (o ++ [.number value])
        (forest ++ [.node (.number value) []]) :=
      Lists.concat (by rwa [List.append_nil]) rfl
    rw [ih (fun u hu => hplain u (by simp [hu])) hreach.2 hleaf (by simpa using hts),
      List.filterMap_cons_some (Token.instruction?_number hkind hvalue), List.flatMap_append,
      List.flatMap_singleton, Tree.written_leaf, List.append_assoc]
    rfl
  | @operator t within back precedence entry q p hprecedence hentry hclear hstops hwithin hback
      ihwithin ihback =>
    obtain ⟨⟨q', right, hq, hright, hlength⟩, hreachWithin, hreachBack⟩ :=
      (operandsInReach_operator_iff hprecedence hwithin.closes hclear hstops).mp hreach
    rw [hwithin.ofTokensUnchecked_eq (hclear.mono (Nat.zero_le _))] at hq
    cases hq
    have hwritten := ihwithin (fun u hu => hplain u (by simp [hu])) hreachWithin Lists.nil
      (by simpa using hright)
    rw [← List.singleton_append, ← List.append_assoc, ← List.append_assoc] at hts
    obtain ⟨us, hus⟩ := hts.of_append
    obtain ⟨rest, operands, rfl, harity, hoperands⟩ := hus.of_concat
    have hsame := (hforest.append hright).unique hoperands
    rw [Token.rightOperands_eq (hplain t (by simp)) hprecedence hentry] at hlength
    have hnode := Tree.written_concat hsame (hlength.trans (by rw [harity]; rfl))
    rw [ihback (fun u hu => hplain u (by simp [hu])) hreachBack hus hts, hnode, hwritten,
      List.filterMap_cons_some (Token.instruction?_operator hprecedence hentry),
      List.filterMap_append]
    simp
  | @group opening closing inner rest q p hopening hclosing hinner hrest ihinner ihrest =>
    obtain ⟨hreachInner, hreachRest⟩ :=
      (operandsInReach_group_iff hopening hclosing hinner.closes).mp hreach
    rw [← List.append_assoc] at hts
    obtain ⟨us, hus⟩ := hts.of_append
    rw [ihrest (fun u hu => hplain u (by simp [hu])) hreachRest hus hts,
      ihinner (fun u hu => hplain u (by simp [hu])) hreachInner hforest hus,
      List.filterMap_cons_none (Token.instruction?_parenOpen hopening), List.filterMap_append,
      List.filterMap_cons_none (Token.instruction?_parenClose hclosing), List.append_assoc]
  | @separator t rest p hkind hrest ih =>
    rw [ih (fun u hu => hplain u (by simp [hu])) hreach.2 hforest hts,
      List.filterMap_cons_none (Token.instruction?_separator hkind)]

/-- Lists that are cut where a property ends are cut in the same place. -/
theorem append_inj_of_forall {α : Type} (P : α → Prop) {a b c d : List α}
    (h : a ++ b = c ++ d) (ha : ∀ x ∈ a, P x) (hc : ∀ x ∈ c, P x) (hb : ∀ x ∈ b, ¬P x)
    (hd : ∀ x ∈ d, ¬P x) : a = c ∧ b = d := by
  have hempty : ∀ m : List α, (∀ x ∈ m, P x) → (∀ x ∈ m, ¬P x) → m = [] := by
    intro m hm hnot
    exact List.eq_nil_iff_forall_not_mem.mpr fun x hx => hnot x hx (hm x hx)
  rcases List.append_eq_append_iff.mp h with ⟨m, rfl, rfl⟩ | ⟨m, rfl, rfl⟩
  · have hm := hempty m (fun x hx => hc x (by simp [hx])) fun x hx => hb x (by simp [hx])
    simp [hm]
  · have hm := hempty m (fun x hx => ha x (by simp [hx])) fun x hx => hd x (by simp [hx])
    simp [hm]

/-- Where an element occurs once, what stands before it and behind it in a part stands so in the
whole. -/
theorem mem_of_sublist_of_nodup {α : Type} {x : α} {before behind front back : List α}
    (h : (before ++ x :: behind).Sublist (front ++ x :: back))
    (hnodup : (front ++ x :: back).Nodup) :
    (∀ y ∈ before, y ∈ front) ∧ ∀ y ∈ behind, y ∈ back := by
  obtain ⟨left, right, hsplit, hbefore, hright⟩ := List.append_sublist_iff.mp h
  obtain ⟨middle, behind', rfl, hx, hbehind⟩ := List.cons_sublist_iff.mp hright
  obtain ⟨first, second, rfl⟩ := List.append_of_mem hx
  have hfront : x ∉ front ∧ x ∉ back := by
    rw [List.nodup_middle, List.nodup_cons, List.mem_append, not_or] at hnodup
    exact hnodup.1
  have hcut : (left ++ first) ++ x :: (second ++ behind') = front ++ x :: back := by
    rw [hsplit]
    simp
  obtain ⟨rfl, -, rfl⟩ := (List.append_cons_inj_of_notMem hfront.1 hfront.2).mp hcut.symm
  exact ⟨fun y hy => List.mem_append_left _ (hbefore.subset hy),
    fun y hy => List.mem_append_right _ (hbehind.subset hy)⟩

/-- What a reading adds to instructions of the text before comes from the text up to its end. -/
theorem Reading.mem_append {scope : Scope} {tokens : List Token} {p o front : List Instruction}
    (h : Reading scope tokens p) (ho : ∀ i ∈ o, i ∈ front) :
    ∀ i ∈ o ++ p, i ∈ front ++ tokens.filterMap (Token.instruction? scope) := by
  intro i hi
  rcases List.mem_append.mp hi with hi | hi
  · exact List.mem_append_left _ (ho i hi)
  · exact List.mem_append_right _ (h.perm.mem_iff.mp hi)

/-- What is written behind an operator cannot come from before it, so if its operands are written
where they belong, it has them in reach. -/
theorem Reading.findsOperands {scope : Scope} {t : Token} {within : List Token} {q : Program}
    {precedence : Precedence} {entry : Entry} (h : Reading scope within q)
    (hclear : Clear 0 within) (hplain : t.IsPlain) (hprecedence : t.precedence? = some precedence)
    (hentry : scope.lookup t.lexeme = some entry) {o front back : List Instruction}
    (hnodup : (front ++ .operator ⟨t.lexeme, entry⟩ ::
      (within.filterMap (Token.instruction? scope) ++ back)).Nodup)
    (ho : ∀ i ∈ o, i ∈ front) {ts : List (Tree Instruction)}
    (hts : Lists Instruction.arity (o ++ q ++ [.operator ⟨t.lexeme, entry⟩]) ts)
    (hwritten : (ts.flatMap (Tree.written Instruction.isInfix)).Sublist
      (front ++ .operator ⟨t.lexeme, entry⟩ ::
        (within.filterMap (Token.instruction? scope) ++ back))) : FindsOperands scope t within := by
  obtain ⟨rest, operands, rfl, harity, hoperands⟩ := hts.of_concat
  have harity' : operands.length = entry.arity.toNat := harity
  have hcount := Token.rightOperands_eq hplain hprecedence hentry
  rw [← harity'] at hcount
  obtain ⟨left, right, rfl, hright⟩ : ∃ left right, operands = left ++ right ∧
      right.length = t.rightOperands scope := by
    refine ⟨operands.take (operands.length - t.rightOperands scope), operands.drop _,
      (List.take_append_drop _ _).symm, ?_⟩
    rw [List.length_drop]
    split at hcount <;> omega
  have hsame : (rest ++ left) ++ right = rest ++ (left ++ right) := List.append_assoc _ _ _
  rw [Tree.written_concat hsame (hright.trans hcount)] at hwritten
  obtain ⟨hbefore, hbehind⟩ := mem_of_sublist_of_nodup hwritten hnodup
  have hlabels := hoperands.2
  rw [← hsame, List.flatMap_append] at hlabels
  have hlater : ∀ i ∈ within.filterMap (Token.instruction? scope) ++ back, i ∉ front :=
    fun i hi hfront => List.disjoint_of_nodup_append hnodup hfront (List.mem_cons_of_mem _ hi)
  obtain ⟨-, rfl⟩ := append_inj_of_forall (· ∈ front) hlabels ho
    (fun i hi => hbefore i ((Tree.flatMap_written_perm _ _).mem_iff.mpr hi))
    (fun i hi => hlater i (List.mem_append_left _ (h.perm.mem_iff.mp hi)))
    (fun i hi => hlater i (hbehind i ((Tree.flatMap_written_perm _ _).mem_iff.mpr hi)))
  refine ⟨_, right, h.ofTokensUnchecked_eq hclear, ⟨fun u hu => ?_, rfl⟩, hright⟩
  exact hoperands.1 u (by simp [hu])

/-- Where the symbols of a text are all different and the trees are written as the text, the
operators have their operands in reach: what is written behind an operator cannot come from before
it. -/
theorem Reading.operandsInReach {scope : Scope} {tokens : List Token} {p : Program}
    (h : Reading scope tokens p) (hplain : ∀ t ∈ tokens, t.IsPlain)
    {o front back whole : List Instruction}
    (hwhole : front ++ tokens.filterMap (Token.instruction? scope) ++ back = whole)
    (hnodup : whole.Nodup) (ho : ∀ i ∈ o, i ∈ front)
    (hwritten : ∀ q, q <+: o ++ p → ∃ ts, Lists Instruction.arity q ts ∧
      (ts.flatMap (Tree.written Instruction.isInfix)).Sublist whole) :
    OperandsInReach scope tokens := by
  induction h generalizing o front back with
  | nil => trivial
  | @number t rest value p hkind hvalue hrest ih =>
    rw [List.filterMap_cons_some (Token.instruction?_number hkind hvalue), List.append_assoc,
      List.cons_append, List.append_cons, ← List.append_assoc] at hwhole
    rw [List.append_cons] at hwritten
    refine ⟨by simp [Token.precedence?, hkind],
      ih (fun u hu => hplain u (by simp [hu])) hwhole ?_ hwritten⟩
    intro i hi
    rcases List.mem_append.mp hi with hi | hi
    · exact List.mem_append_left _ (ho i hi)
    · exact List.mem_append_right _ hi
  | @operator t within rest precedence entry q p hprecedence hentry hclear hstops hwithin hrest
      ihwithin ihrest =>
    rw [operandsInReach_operator_iff hprecedence hwithin.closes hclear hstops]
    rw [List.filterMap_cons_some (Token.instruction?_operator hprecedence hentry),
      List.filterMap_append] at hwhole
    rw [List.append_cons q, ← List.append_assoc, ← List.append_assoc] at hwritten
    obtain ⟨ts, hts, hsublist⟩ := hwritten (o ++ q ++ [.operator ⟨t.lexeme, entry⟩])
      (List.prefix_append _ _)
    have hinstr : front ++ .operator ⟨t.lexeme, entry⟩ ::
        (within.filterMap (Token.instruction? scope) ++
          (rest.filterMap (Token.instruction? scope) ++ back)) = whole := by
      rw [← hwhole]
      simp
    refine ⟨hwithin.findsOperands (hclear.mono (Nat.zero_le _)) (hplain t (by simp)) hprecedence
      hentry (by rwa [hinstr]) ho hts (by rwa [hinstr]), ?_, ?_⟩
    · have hsplit : (front ++ [.operator ⟨t.lexeme, entry⟩]) ++
          within.filterMap (Token.instruction? scope) ++
            (rest.filterMap (Token.instruction? scope) ++ back) = whole := by
        rw [← hinstr]
        simp
      refine ihwithin (fun u hu => hplain u (by simp [hu])) hsplit
        (fun i hi => List.mem_append_left _ (ho i hi)) fun r hr => hwritten r ?_
      rw [List.append_assoc]
      exact hr.trans (List.prefix_append _ _)
    · have hsplit : (front ++ [.operator ⟨t.lexeme, entry⟩] ++
          within.filterMap (Token.instruction? scope)) ++
            rest.filterMap (Token.instruction? scope) ++ back = whole := by
        rw [← hinstr]
        simp
      refine ihrest (fun u hu => hplain u (by simp [hu])) hsplit ?_ hwritten
      intro i hi
      rcases List.mem_append.mp hi with hi | hi
      · exact hwithin.mem_append (fun i hi => List.mem_append_left _ (ho i hi)) i hi
      · rw [List.mem_singleton.mp hi]
        simp
  | @group opening closing inner rest q p hopening hclosing hinner hrest ihinner ihrest =>
    rw [operandsInReach_group_iff hopening hclosing hinner.closes]
    rw [List.filterMap_cons_none (Token.instruction?_parenOpen hopening), List.filterMap_append,
      List.filterMap_cons_none (Token.instruction?_parenClose hclosing), ← List.append_assoc]
      at hwhole
    rw [← List.append_assoc] at hwritten
    constructor
    · refine ihinner (fun u hu => hplain u (by simp [hu])) (by rwa [List.append_assoc] at hwhole) ho
        fun r hr => hwritten r (hr.trans (List.prefix_append _ _))
    · exact ihrest (fun u hu => hplain u (by simp [hu])) hwhole (hinner.mem_append ho) hwritten
  | @separator t rest p hkind hrest ih =>
    rw [List.filterMap_cons_none (Token.instruction?_separator hkind)] at hwhole
    exact ⟨by simp [Token.precedence?, hkind],
      ih (fun u hu => hplain u (by simp [hu])) hwhole ho hwritten⟩

/-- An accepted program that lists a tree is the one that was written if what is in reach of each
operator is exactly its right operands, and where all symbols of the text are different only
then. -/
theorem written_of_compileWith {text : String} {functions : List (String × Entry)}
    {resolver : Option Resolver} {e : Expression} {scope : Scope} {t : Tree Instruction}
    (hscope : scope = (scan text (.ofFunctions functions) resolver).scope)
    (h : (compileWith text functions resolver).outcome = .ok e)
    (hranked : t.Ranked Instruction.arity) (hprogram : e.program = t.postorder) :
    (OperandsInReach scope e.tokens →
        t.written Instruction.isInfix = e.tokens.filterMap (Token.instruction? scope)) ∧
      ((e.tokens.filterMap (Token.instruction? scope)).Nodup →
        t.written Instruction.isInfix = e.tokens.filterMap (Token.instruction? scope) →
          OperandsInReach scope e.tokens) := by
  obtain ⟨final, hscans, hdepth, htokens, hfinal, hread⟩ := exists_of_compileWith h
  have heq : scope = final.scope := hscope.trans hfinal
  rw [heq]
  obtain ⟨yard, hrun, hfinish, -⟩ := Program.ofTokens_eq_ok_iff.mp hread
  have hcloses := hscans.closes hdepth
  have hplain := hscans.isPlain
  rw [← htokens] at hcloses hplain
  have hreading := (hrun.exists_reading hcloses).1
  rw [← hfinish] at hreading
  have hlists : Lists Instruction.arity e.program [t] :=
    ⟨by simpa using hranked, by simpa using hprogram⟩
  constructor
  · intro hreach
    simpa using hreading.written_eq hplain hreach Lists.nil hlists
  · intro hnodup hwritten
    have hwhole : [] ++ e.tokens.filterMap (Token.instruction? final.scope) ++ [] =
        e.tokens.filterMap (Token.instruction? final.scope) := by simp
    refine hreading.operandsInReach hplain (o := []) hwhole hnodup (by simp) fun q hq => ?_
    obtain ⟨r, hr⟩ := hq
    rw [List.nil_append] at hr
    rw [← hr] at hlists
    obtain ⟨ts, hts⟩ := hlists.of_append
    refine ⟨ts, hts, ?_⟩
    have hsublist : (ts.flatMap (Tree.written Instruction.isInfix)).Sublist
        ([t].flatMap (Tree.written Instruction.isInfix)) := hts.written_sublist hlists
    simpa [hwritten] using hsublist

/-- A program that lists one tree is its postorder. -/
theorem exists_tree_of_forest? {p : Program} {names : List String}
    (h : ((Lists.forest? Instruction.arity p).any fun ts =>
      ts.map (fun t => (t.written Instruction.isInfix).map Instruction.name) = [names]) = true) :
    ∃ t : Tree Instruction, t.Ranked Instruction.arity ∧ p = t.postorder ∧
      (t.written Instruction.isInfix).map Instruction.name = names := by
  obtain ⟨ts, hforest, hnames⟩ := (Option.any_eq_true _ _).mp h
  obtain ⟨t, rfl, htree⟩ := List.map_eq_singleton_iff.mp (of_decide_eq_true hnames)
  obtain ⟨hranked, hprogram⟩ := Lists.forest?_eq_some_iff.mp hforest
  exact ⟨t, hranked t (by simp), by simpa using hprogram, htree⟩

/-- The program of `round(pi, 2) - e` is the one that was written. -/
theorem written_round_minus :
    ∃ (e : Expression) (t : Tree Instruction),
      (compileWith "round(pi, 2) - e" [] none).outcome = .ok e ∧
      t.Ranked Instruction.arity ∧ e.program = t.postorder ∧
      t.written Instruction.isInfix = e.tokens.filterMap
        (Token.instruction? (scan "round(pi, 2) - e" (.ofFunctions []) none).scope) ∧
      (t.written Instruction.isInfix).map Instruction.name = ["round", "pi", "", "-", "e"] := by
  have hpasses : (compileWith "round(pi, 2) - e" [] none).passes (fun e =>
      OperandsInReach (scan "round(pi, 2) - e" (.ofFunctions []) none).scope e.tokens &&
        (Lists.forest? Instruction.arity e.program).any fun ts =>
          ts.map (fun t => (t.written Instruction.isInfix).map Instruction.name) =
            [["round", "pi", "", "-", "e"]]) = true := by
    decide +kernel
  obtain ⟨e, houtcome, htest⟩ := Compilation.exists_of_passes hpasses
  rw [Bool.and_eq_true, decide_eq_true_eq] at htest
  obtain ⟨t, hranked, hprogram, hnames⟩ := exists_tree_of_forest? htest.2
  exact ⟨e, t, houtcome, hranked, hprogram,
    (written_of_compileWith rfl houtcome hranked hprogram).1 htest.1, hnames⟩

/-- The program of `2 sqrt` is the root of two, whose sign is written before the number. -/
theorem written_two_sqrt :
    ∃ (e : Expression) (t : Tree Instruction),
      (compileWith "2 sqrt" [] none).outcome = .ok e ∧ t.Ranked Instruction.arity ∧
      e.program = t.postorder ∧ t.written Instruction.isInfix ≠
        e.tokens.filterMap (Token.instruction? (scan "2 sqrt" (.ofFunctions []) none).scope) := by
  have hpasses : (compileWith "2 sqrt" [] none).passes (fun e =>
      (e.tokens.filterMap (Token.instruction? (scan "2 sqrt" (.ofFunctions []) none).scope)).map
          Instruction.name = ["", "sqrt"] &&
        (Lists.forest? Instruction.arity e.program).any fun ts =>
          ts.map (fun t => (t.written Instruction.isInfix).map Instruction.name) =
            [["sqrt", ""]]) = true := by
    decide +kernel
  obtain ⟨e, houtcome, htest⟩ := Compilation.exists_of_passes hpasses
  rw [Bool.and_eq_true, decide_eq_true_eq] at htest
  obtain ⟨t, hranked, hprogram, hnames⟩ := exists_tree_of_forest? htest.2
  refine ⟨e, t, houtcome, hranked, hprogram, fun hwritten => ?_⟩
  rw [hwritten, htest.1] at hnames
  exact absurd hnames (by decide)

end Formula
