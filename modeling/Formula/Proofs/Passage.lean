import Formula.Proofs.Discipline

/-!
# The way of a scan through its text

A scan goes one way: a piece is taken up in one manner only, of two places that are reached the
later is reached from the earlier, and the scan ends where it can take up no further piece. What
every step keeps holds at all places, and every token was added at one of them.
-/

namespace Formula

namespace Scanner

variable {resolver : Option Resolver} {s t u next final : Scanner} {cs back rest : List Char}
  {p : Piece}

theorem Takes.unique {other : Scanner} (h : Takes resolver s p next)
    (hother : Takes resolver s p other) : next = other := by
  have hok := absorb_eq_ok_iff.mpr h
  rw [absorb_eq_ok_iff.mpr hother] at hok
  exact (Except.ok.inj hok).symm

theorem Reaches.trans (h : Reaches resolver s cs t back) (hon : Reaches resolver t back u rest) :
    Reaches resolver s cs u rest := by
  induction h with
  | here s cs => exact hon
  | step hpiece htakes hrest ih => exact .step hpiece htakes (ih hon)

/-- Of two places that a scan reaches, one is reached from the other. -/
theorem Reaches.total (h : Reaches resolver s cs t back) (hother : Reaches resolver s cs u rest) :
    Reaches resolver t back u rest ∨ Reaches resolver u rest t back := by
  induction h with
  | here s cs => exact .inl hother
  | step hpiece htakes hrest ih =>
    cases hother with
    | here => exact .inr (.step hpiece htakes hrest)
    | step hsame hagain hother =>
      obtain rfl := Option.some.inj (hpiece.symm.trans hsame)
      obtain rfl := htakes.unique hagain
      exact ih hother

/-- What every step keeps holds wherever the scan comes. -/
theorem Reaches.invariant {P : Scanner → List Char → Prop} (h : Reaches resolver s cs t back)
    (hs : P s cs)
    (hstep : ∀ u rest p next, Reaches resolver s cs u rest → P u rest →
      Piece.next? u.last rest = some p → Takes resolver u p next → P next p.rest) : P t back := by
  induction h with
  | here s cs => exact hs
  | @step s next t cs back p hpiece htakes hrest ih =>
    refine ih (hstep s cs p next (.here s cs) hs hpiece htakes) ?_
    exact fun u rest q after hreaches => hstep u rest q after (.step hpiece htakes hreaches)

theorem Reaches.index_le (h : Reaches resolver s cs t back) : s.index ≤ t.index := by
  obtain ⟨front, -, hindex⟩ := h.exists_front
  omega

/-- Taking up a piece moves the scan on. -/
theorem Takes.index_lt (hpiece : Piece.next? s.last cs = some p) (h : Takes resolver s p next) :
    s.index < next.index := by
  have hwidth := Text.byteLength_pos (Piece.next?_append hpiece).2
  rw [h.index_eq]
  omega

/-- A scan comes to a position only once. -/
theorem Reaches.eq_of_index (h : Reaches resolver s cs t back) (hindex : t.index = s.index) :
    t = s ∧ back = cs := by
  cases h with
  | here => exact ⟨rfl, rfl⟩
  | step hpiece htakes hrest =>
    have hlt := htakes.index_lt hpiece
    have hle := hrest.index_le
    omega

theorem Takes.within (h : Takes resolver s p next) : s.scope.Within next.scope := by
  cases h with
  | learned hshape hunknown hresolver hentry => exact Scope.within_insert hunknown _
  | _ => exact .refl _

/-- No known name is forgotten or gets another meaning. -/
theorem Reaches.within (h : Reaches resolver s cs t back) : s.scope.Within t.scope := by
  refine h.invariant (P := fun t _ => s.scope.Within t.scope) (.refl _) ?_
  intro u rest p next _ hwithin _ htakes
  exact hwithin.trans htakes.within

/-- What the scan comes to further on is what it comes to in the end. -/
theorem Reaches.run_eq (h : Reaches resolver s cs t back) :
    s.run resolver cs = t.run resolver back := by
  induction h with
  | here s cs => rfl
  | step hpiece htakes hrest ih =>
    rw [run_of_next? resolver hpiece, absorb_eq_ok_iff.mpr htakes]
    exact ih

theorem Ends.scope_eq {ended : Scan} (h : Ends resolver s cs ended) : ended.scope = s.scope := by
  cases h <;> rfl

/-- Where the scan ends, a piece that comes is not taken up. -/
theorem Ends.absorb_eq {ended : Scan} (h : Ends resolver s cs ended)
    (hpiece : Piece.next? s.last cs = some p) : s.absorb resolver p = .error ended := by
  cases h with
  | finished hcs hdepth =>
    rw [hcs] at hpiece
    cases hpiece
  | unclosed hcs hdepth =>
    rw [hcs] at hpiece
    cases hpiece
  | unopened hcs hdepth =>
    rw [hcs] at hpiece
    cases hpiece
    simp only [absorb, if_pos hdepth]
  | unrecognized hcs hnone =>
    rw [hnone] at hpiece
    cases hpiece
  | unknown hname hunknown hresolver =>
    obtain rfl := Option.some.inj (hname.symm.trans hpiece)
    simp only [absorb, learn, hunknown, hresolver]
  | unanswered hname hunknown hresolver hanswer =>
    obtain rfl := Option.some.inj (hname.symm.trans hpiece)
    simp only [absorb, learn, hunknown, hresolver, hanswer]

theorem Ends.not_takes {ended : Scan} (h : Ends resolver s cs ended)
    (hpiece : Piece.next? s.last cs = some p) : ¬Takes resolver s p next := by
  intro htakes
  have habsorb := h.absorb_eq hpiece
  rw [absorb_eq_ok_iff.mpr htakes] at habsorb
  cases habsorb

/-- The scan returns what it comes to where it ends. -/
theorem Ends.run_eq {ended : Scan} (h : Ends resolver s cs ended) :
    s.run resolver cs = ended := by
  cases hpiece : Piece.next? s.last cs with
  | some p => rw [run_of_next? resolver hpiece, h.absorb_eq hpiece]
  | none =>
    cases h with
    | finished hcs hdepth => rw [hcs, run_nil, finish, if_pos hdepth]
    | unclosed hcs hdepth => rw [hcs, run_nil, finish, if_neg hdepth]
    | unopened hcs hdepth =>
      rw [hcs] at hpiece
      cases hpiece
    | unrecognized hcs hnone =>
      subst hcs
      exact run_of_next?_none resolver hnone
    | unknown hname =>
      rw [hname] at hpiece
      cases hpiece
    | unanswered hname =>
      rw [hname] at hpiece
      cases hpiece

/-- Wherever a scan comes, it goes on from there to its end. -/
theorem Reaches.to_ends {ended : Scan} (h : Reaches resolver s cs u rest)
    (hend : Reaches resolver s cs t back) (hends : Ends resolver t back ended) :
    Reaches resolver u rest t back := by
  rcases h.total hend with hon | hback
  · exact hon
  · cases hback with
    | here => exact .here _ _
    | step hpiece htakes hrest => exact absurd htakes (hends.not_takes hpiece)

theorem Scans.reaches (h : Scans resolver s cs final) : Reaches resolver s cs final [] := by
  induction h with
  | nil s => exact .here s []
  | cons hpiece htakes hrest ih => exact .step hpiece htakes ih

theorem Reaches.to_scans (h : Reaches resolver s cs t back) (hscans : Scans resolver s cs final) :
    Scans resolver t back final := by
  induction h with
  | here s cs => exact hscans
  | step hpiece htakes hrest ih =>
    cases hscans with
    | nil => cases hpiece
    | cons hsame hagain hscans =>
      obtain rfl := Option.some.inj (hpiece.symm.trans hsame)
      obtain rfl := htakes.unique hagain
      exact ih hscans

/-- A name that is taken up stands for one entry, before and behind it. -/
theorem Takes.exists_learn (hshape : p.shape = .name) (h : Takes resolver s p next) :
    ∃ entry, (s.learn resolver (String.ofList p.lexeme)).1 = some entry ∧
      next.scope.lookup (String.ofList p.lexeme) = some entry ∧ next.last = classOf entry := by
  cases h with
  | @known entry hname hentry => exact ⟨entry, by simp [learn, hentry], hentry, rfl⟩
  | @learned resolve entry hname hunknown hresolver hentry =>
    subst hresolver
    refine ⟨entry, by simp [learn, hunknown, hentry], ?_, rfl⟩
    rw [Scope.lookup_insert, if_pos rfl]
  | _ hother => cases hshape.symm.trans hother

/-- A name becomes a prefix token. -/
theorem Takes.tokens_of_name (hshape : p.shape = .name) (h : Takes resolver s p next) :
    next.tokens = s.tokens.push ⟨.prefixOp, nameLexeme (String.ofList p.lexeme), s.index⟩ := by
  cases h with
  | known => rfl
  | learned => rfl
  | _ hother => cases hshape.symm.trans hother

/-- Only a name becomes a prefix token. -/
theorem Takes.name_of_tokens {token : Token} (h : Takes resolver s p next)
    (htokens : next.tokens = s.tokens.push token) (hkind : token.kind = .prefixOp) :
    p.shape = .name := by
  cases h with
  | known hshape => exact hshape
  | learned hshape => exact hshape
  | blank =>
    have hsize := congrArg Array.size htokens
    simp [advance] at hsize
  | _ =>
    rw [← (Array.push_eq_push.mp htokens).1] at hkind
    cases hkind

/-- Every token that a scan adds was added where one piece was taken up. -/
theorem Scans.exists_takes_of_tokens (h : Scans resolver s cs final) {front after : List Token}
    {token : Token}
    (htokens : final.tokens.toList = s.tokens.toList ++ (front ++ token :: after)) :
    ∃ t back p next, Reaches resolver s cs t back ∧ Piece.next? t.last back = some p ∧
      Takes resolver t p next ∧ t.tokens.toList = s.tokens.toList ++ front ∧
      next.tokens = t.tokens.push token ∧ Scans resolver next p.rest final := by
  induction h generalizing front with
  | nil s => simp at htokens
  | @cons s next final cs p hpiece htakes hrest ih =>
    obtain ⟨added, hadded, -, -⟩ := hrest.exists_laidOut
    rcases htakes.tokens_eq (Piece.fits_of_next? hpiece) with ⟨hsame, -⟩ | ⟨first, hpush, -, -⟩
    · rw [← hsame] at htokens ⊢
      obtain ⟨t, back, q, after, hreaches, hrest⟩ := ih htokens
      exact ⟨t, back, q, after, .step hpiece htakes hreaches, hrest⟩
    · have hfirst : first :: added = front ++ token :: after := by
        rw [hadded, hpush] at htokens
        simpa using htokens
      rcases List.cons_eq_append_iff.mp hfirst with ⟨rfl, hback⟩ | ⟨more, rfl, hmore⟩
      · obtain ⟨rfl, -⟩ := List.cons.inj hback
        exact ⟨s, cs, p, next, .here s cs, hpiece, htakes, by simp, hpush, hrest⟩
      · have hnext : next.tokens.toList = s.tokens.toList ++ [first] := by simp [hpush]
        have hlater : final.tokens.toList = next.tokens.toList ++ (more ++ token :: after) := by
          rw [htokens, hnext]
          simp
        obtain ⟨t, back, q, after, hreaches, hstep, hagain, hfront, hrest⟩ := ih hlater
        refine ⟨t, back, q, after, .step hpiece htakes hreaches, hstep, hagain, ?_, hrest⟩
        rw [hfront, hnext]
        simp

end Scanner

end Formula
