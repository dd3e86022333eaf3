import Formula.Proofs.Passage

/-!
# What a scan asks and learns

A scan asks its resolver for a name where it comes to the name for the first time, unless its scope
knows the name, and never again. The scope learns the answers and nothing else; a name without an
answer is the last one, and the scan ends in front of it.
-/

namespace Formula

/-- An unknown name has no entry of its own and is not built in. -/
theorem Scope.eq_none_of_lookup {scope : Scope} {name : String} (h : scope.lookup name = none) :
    scope.own name = none ∧ Builtin.find? name = none := by
  unfold lookup at h
  split at h
  · cases h
  · rename_i hown
    exact ⟨hown, Option.map_eq_none_iff.mp h⟩

/-- An identifier is its own folded name. -/
theorem Lexeme.IsIdentifier.foldCase_eq {name : String} (h : IsIdentifier name.toList) :
    Text.foldCase name = name := by
  apply String.toList_injective
  rw [Text.toList_foldCase]
  exact (List.map_congr_left h.isSmall).trans (List.map_id _)

namespace Scanner

/-- The scan of a text comes to a name at this byte position. -/
def Meets (resolver : Option Resolver) (scope : Scope) (text name : String) (index : Nat) : Prop :=
  ∃ s cs p, Reaches resolver (.start scope) (Text.foldCase text).toList s cs ∧
    Piece.next? s.last cs = some p ∧ p.shape = .name ∧ String.ofList p.lexeme = name ∧
    s.index = index

/-- The scan comes to the name here and nowhere before. -/
def MeetsFirst (resolver : Option Resolver) (scope : Scope) (text name : String) (index : Nat) :
    Prop :=
  Meets resolver scope text name index ∧
    ∀ other, Meets resolver scope text name other → index ≤ other

section Meeting

variable {resolver : Option Resolver} {scope : Scope} {text name : String} {s t next : Scanner}
  {cs back : List Char} {p : Piece}

/-- In a text without fault, a name that the scan comes to has its token. -/
theorem Meets.mem_tokens {tokens : List Token} {index : Nat}
    (hmeets : Meets resolver scope text name index)
    (h : (scan text scope resolver).outcome = .ok tokens) :
    ⟨.prefixOp, nameLexeme name, index⟩ ∈ tokens := by
  obtain ⟨s, cs, p, hreaches, hpiece, hshape, rfl, rfl⟩ := hmeets
  obtain ⟨final, hscans, -, -, rfl⟩ := exists_scans h
  cases hreaches.to_scans hscans with
  | nil => cases hpiece
  | cons hsame htakes hrest =>
    obtain rfl := Option.some.inj (hpiece.symm.trans hsame)
    obtain ⟨added, hadded, -, -⟩ := hrest.exists_laidOut
    rw [hadded, htakes.tokens_of_name hshape]
    simp

/-- In a text without fault, the scan comes to the names of its prefix tokens. -/
theorem meets_iff_of_scan {tokens : List Token} {index : Nat}
    (h : (scan text scope resolver).outcome = .ok tokens) :
    Meets resolver scope text name index ↔
      ∃ t ∈ tokens, t.kind = .prefixOp ∧ t.spelling = name.toList ∧ t.index = index := by
  obtain ⟨final, hscans, -, -, rfl⟩ := exists_scans h
  have hspelling : ∀ {s : Scanner} {cs : List Char} {p : Piece}, Piece.next? s.last cs = some p →
      Token.spelling ⟨.prefixOp, nameLexeme (String.ofList p.lexeme), s.index⟩ = p.lexeme :=
    fun hpiece => Word.spelling_nameLexeme (Piece.fits_of_next? hpiece).lexeme_ne
  constructor
  · intro hmeets
    have hmem := hmeets.mem_tokens h
    obtain ⟨s, cs, p, hreaches, hpiece, hshape, rfl, rfl⟩ := hmeets
    exact ⟨_, hmem, rfl, (hspelling hpiece).trans (String.toList_ofList).symm, rfl⟩
  · rintro ⟨t, ht, hkind, hname, rfl⟩
    obtain ⟨front, back, hsplit⟩ := List.append_of_mem ht
    obtain ⟨s, cs, p, next, hreaches, hpiece, htakes, -, hpush, -⟩ :=
      hscans.exists_takes_of_tokens hsplit
    have hshape := htakes.name_of_tokens hpush hkind
    rw [htakes.tokens_of_name hshape] at hpush
    rw [← (Array.push_eq_push.mp hpush).1] at hname ⊢
    refine ⟨s, cs, p, hreaches, hpiece, hshape, ?_, rfl⟩
    rw [← hspelling hpiece, hname, String.ofList_toList]

/-- The scan comes to a name that is unknown there for the first time. -/
theorem meetsFirst_of_unknown
    (hreaches : Reaches resolver (.start scope) (Text.foldCase text).toList s cs)
    (hpiece : Piece.next? s.last cs = some p) (hshape : p.shape = .name)
    (hunknown : s.scope.lookup (String.ofList p.lexeme) = none) :
    MeetsFirst resolver scope text (String.ofList p.lexeme) s.index := by
  refine ⟨⟨s, cs, p, hreaches, hpiece, hshape, rfl, rfl⟩, ?_⟩
  rintro other ⟨t, back, q, hbefore, hagain, hname, hsame, rfl⟩
  rcases hreaches.total hbefore with hon | hon
  · exact hon.index_le
  · cases hon with
    | here => exact Nat.le_refl _
    | step hpiece htakes hrest =>
      obtain rfl := Option.some.inj (hagain.symm.trans hpiece)
      obtain ⟨entry, -, hentry, -⟩ := htakes.exists_learn hname
      have hknown := hrest.within _ _ hentry
      rw [hsame, hunknown] at hknown
      cases hknown

/-- Only an identifier is ever unknown, since the other two names are built in. -/
theorem isIdentifier_of_unknown (hpiece : Piece.next? s.last cs = some p)
    (hshape : p.shape = .name) (hunknown : s.scope.lookup (String.ofList p.lexeme) = none) :
    Lexeme.IsIdentifier p.lexeme := by
  have hbuiltin : (Builtin.find? (String.ofList p.lexeme)).isSome = true → False := by
    intro hfound
    obtain ⟨entry, hentry⟩ := s.scope.exists_lookup hfound
    rw [hunknown] at hentry
    cases hentry
  have hfits : p.Fits s.last := Piece.fits_of_next? hpiece
  simp only [Piece.Fits, hshape] at hfits
  rcases hfits with hbang | hidentifier | ⟨hminus, -⟩
  · exact absurd (hbuiltin (by rw [hbang]; decide)) not_false
  · exact hidentifier
  · exact absurd (hbuiltin (by rw [hminus]; decide)) not_false

end Meeting

/-- What holds of the names asked for and of the known names wherever the scan comes. -/
structure Learned (resolve : Resolver) (scope : Scope) (text : String) (asked : List String)
    (known : Scope) (index : Nat) : Prop where
  nodup : asked.Nodup
  unknown : ∀ name ∈ asked, Lexeme.IsIdentifier name.toList ∧ scope.lookup name = none
  first : ∀ name ∈ asked, ∃ i < index, MeetsFirst (some resolve) scope text name i
  ordered : asked.Pairwise fun a b => ∃ i j, MeetsFirst (some resolve) scope text a i ∧
    MeetsFirst (some resolve) scope text b j ∧ i < j
  own : ∀ name, known.own name = if name ∈ asked then resolve name else scope.own name

section Learning

variable {resolve : Resolver} {scope known : Scope} {text : String} {asked : List String}
  {s t next : Scanner} {cs back : List Char} {p : Piece} {index : Nat}

theorem Learned.mono (h : Learned resolve scope text asked known s.index) (hle : s.index ≤ index) :
    Learned resolve scope text asked known index := by
  refine ⟨h.nodup, h.unknown, fun name hname => ?_, h.ordered, h.own⟩
  obtain ⟨i, hi, hfirst⟩ := h.first name hname
  exact ⟨i, by omega, hfirst⟩

theorem Learned.lookup (h : Learned resolve scope text asked known index) (name : String) :
    known.lookup name = if name ∈ asked then resolve name else scope.lookup name := by
  have hown := h.own name
  unfold Scope.lookup
  by_cases hname : name ∈ asked
  · have hbuiltin := Scope.eq_none_of_lookup (h.unknown name hname).2
    rw [if_pos hname] at hown ⊢
    rw [hown, hbuiltin.2]
    cases resolve name <;> rfl
  · rw [if_neg hname] at hown ⊢
    rw [hown]

/-- One more name is asked for. -/
theorem Learned.ask (h : Learned resolve scope text s.asked s.scope s.index)
    (hreaches : Reaches (some resolve) (.start scope) (Text.foldCase text).toList s cs)
    (hpiece : Piece.next? s.last cs = some p) (hshape : p.shape = .name)
    (hunknown : s.scope.lookup (String.ofList p.lexeme) = none) (hindex : s.index < index)
    (hknown : ∀ name, known.own name =
      if name = String.ofList p.lexeme then resolve name else s.scope.own name) :
    Learned resolve scope text (s.asked ++ [String.ofList p.lexeme]) known index := by
  have hmeets := meetsFirst_of_unknown hreaches hpiece hshape hunknown
  have hidentifier := isIdentifier_of_unknown hpiece hshape hunknown
  have hearlier : ∀ name ∈ s.asked, ∃ i j, MeetsFirst (some resolve) scope text name i ∧
      MeetsFirst (some resolve) scope text (String.ofList p.lexeme) j ∧ i < j := by
    intro name hname
    obtain ⟨i, hi, hfirst⟩ := h.first name hname
    exact ⟨i, s.index, hfirst, hmeets, hi⟩
  have hnew : String.ofList p.lexeme ∉ s.asked := by
    intro hmem
    obtain ⟨i, hi, hfirst⟩ := h.first _ hmem
    have hle := hmeets.2 i hfirst.1
    omega
  refine ⟨?_, ?_, ?_, ?_, ?_⟩
  · rw [List.nodup_append]
    refine ⟨h.nodup, List.pairwise_singleton _ _, fun name hname other hother heq => hnew ?_⟩
    rwa [← List.mem_singleton.mp hother, ← heq]
  · refine List.forall_mem_append.mpr ⟨h.unknown, List.forall_mem_singleton.mpr ⟨?_, ?_⟩⟩
    · rwa [String.toList_ofList]
    · have hlookup := h.lookup (String.ofList p.lexeme)
      rwa [hunknown, if_neg hnew, eq_comm] at hlookup
  · refine List.forall_mem_append.mpr ⟨fun name hname => ?_, List.forall_mem_singleton.mpr ?_⟩
    · obtain ⟨i, hi, hfirst⟩ := h.first name hname
      exact ⟨i, by omega, hfirst⟩
    · exact ⟨s.index, hindex, hmeets⟩
  · refine List.pairwise_append.mpr ⟨h.ordered, List.pairwise_singleton _ _, ?_⟩
    intro name hname other hother
    rw [List.mem_singleton.mp hother]
    exact hearlier name hname
  · intro name
    rw [hknown, h.own]
    by_cases hname : name = String.ofList p.lexeme <;> simp [hname]

/-- Every step keeps what holds of the names. -/
theorem Reaches.learned
    (h : Reaches (some resolve) (.start scope) (Text.foldCase text).toList t back) :
    Learned resolve scope text t.asked t.scope t.index ∧
      ∀ name ∈ t.asked, (resolve name).isSome = true := by
  refine h.invariant (P := fun t _ => Learned resolve scope text t.asked t.scope t.index ∧
    ∀ name ∈ t.asked, (resolve name).isSome = true) ⟨⟨?_, ?_, ?_, ?_, ?_⟩, ?_⟩ ?_
  · exact List.nodup_nil
  · simp [start]
  · simp [start]
  · exact .nil
  · simp [start]
  · simp [start]
  · rintro u rest p next hreaches ⟨hlearned, hanswered⟩ hpiece htakes
    have hlt := htakes.index_lt hpiece
    cases htakes with
    | @learned resolve entry hshape hunknown hresolver hentry =>
      cases hresolver
      refine ⟨hlearned.ask hreaches hpiece hshape hunknown hlt fun name => ?_, ?_⟩
      · rw [Scope.own_insert]
        by_cases hname : name = String.ofList p.lexeme <;> simp [hname, hentry]
      · exact List.forall_mem_append.mpr ⟨hanswered, by simp [hentry]⟩
    | _ => exact ⟨hlearned.mono (Nat.le_of_lt hlt), hanswered⟩

/-- A name that the scan comes to is known in the end, or the scan ends in front of it. -/
theorem Meets.lookup_or_ends {name : String} {i : Nat} {ended : Scan}
    (hmeets : Meets (some resolve) scope text name i)
    (hend : Reaches (some resolve) (.start scope) (Text.foldCase text).toList t back)
    (hends : Ends (some resolve) t back ended) :
    (ended.scope.lookup name).isSome = true ∨ name ∈ ended.asked := by
  obtain ⟨s, cs, p, hreaches, hpiece, hshape, rfl, -⟩ := hmeets
  rw [hends.scope_eq]
  cases hreaches.to_ends hend hends with
  | step hsame htakes hrest =>
    obtain rfl := Option.some.inj (hpiece.symm.trans hsame)
    obtain ⟨entry, -, hentry, -⟩ := htakes.exists_learn hshape
    exact .inl (Option.isSome_of_eq_some (hrest.within _ _ hentry))
  | here =>
    cases hends with
    | unanswered hname =>
      obtain rfl := Option.some.inj (hname.symm.trans hpiece)
      exact .inr (List.mem_append_right _ (List.mem_singleton_self _))
    | unknown hname hunknown hresolver => cases hresolver
    | unrecognized hcs hnone => cases hnone.symm.trans hpiece
    | finished hcs hdepth =>
      rw [hcs] at hpiece
      cases hpiece
    | unclosed hcs hdepth =>
      rw [hcs] at hpiece
      cases hpiece
    | unopened hcs hdepth =>
      rw [hcs] at hpiece
      cases hpiece
      cases hshape

end Learning

end Scanner

/-- What a scan asks its resolver for and what it learns from it. -/
structure Scan.Learns (scanned : Scan) (text : String) (scope : Scope) (resolve : Resolver) :
    Prop where
  nodup : scanned.asked.Nodup
  identifier : ∀ name ∈ scanned.asked, Lexeme.IsIdentifier name.toList
  mem_asked_iff : ∀ name, name ∈ scanned.asked ↔
    scope.contains name = false ∧ ∃ index, Scanner.Meets (some resolve) scope text name index
  ordered : scanned.asked.Pairwise fun a b =>
    ∃ i j, Scanner.MeetsFirst (some resolve) scope text a i ∧
      Scanner.MeetsFirst (some resolve) scope text b j ∧ i < j
  unanswered : ∀ name ∈ scanned.asked, resolve name = none →
    scanned.asked.getLast? = some name ∧
      ∃ index, Scanner.MeetsFirst (some resolve) scope text name index ∧
        scanned.outcome = .error ⟨.undefinedName, index, name⟩
  lookup : ∀ name, scanned.scope.lookup name =
    if name ∈ scanned.asked then resolve name else scope.lookup name
  changed_iff : ∀ name, scanned.scope.lookup name ≠ scope.lookup name ↔
    name ∈ scanned.asked ∧ (resolve name).isSome = true
  meets_iff : ∀ tokens, scanned.outcome = .ok tokens → ∀ name index,
    Scanner.Meets (some resolve) scope text name index ↔
      ∃ t ∈ tokens, t.kind = .prefixOp ∧ t.spelling = name.toList ∧ t.index = index

namespace Scanner

/-- Where a scan ends, its names and what it knows are as everywhere before. -/
theorem Ends.learned {resolve : Resolver} {scope : Scope} {text : String} {t : Scanner}
    {back : List Char} {ended : Scan}
    (hreaches : Reaches (some resolve) (.start scope) (Text.foldCase text).toList t back)
    (hends : Ends (some resolve) t back ended) :
    Learned resolve scope text ended.asked ended.scope (t.index + 1) ∧
      ∀ name ∈ ended.asked, resolve name = none → ended.asked.getLast? = some name ∧
        ∃ index, MeetsFirst (some resolve) scope text name index ∧
          ended.outcome = .error ⟨.undefinedName, index, name⟩ := by
  obtain ⟨hlearned, hanswered⟩ := hreaches.learned
  have hnone : ∀ name ∈ t.asked, resolve name ≠ none := fun name hname hanswer => by
    have hsome := hanswered name hname
    rw [hanswer] at hsome
    cases hsome
  cases hends with
  | @unanswered resolve name rest hpiece hunknown hresolver hanswer =>
    cases hresolver
    refine ⟨hlearned.ask hreaches hpiece rfl hunknown (Nat.lt_succ_self _) ?_, ?_⟩
    · intro other
      by_cases hother : other = String.ofList name
      · rw [if_pos hother, hother, hanswer]
        exact (Scope.eq_none_of_lookup hunknown).1
      · rw [if_neg hother]
        rfl
    · refine List.forall_mem_append.mpr ⟨fun other hmem h => absurd h (hnone other hmem), ?_⟩
      refine List.forall_mem_singleton.mpr fun _ => ⟨List.getLast?_concat, t.index, ?_, rfl⟩
      exact meetsFirst_of_unknown hreaches hpiece rfl hunknown
  | _ =>
    exact ⟨hlearned.mono (Nat.le_succ _), fun name hname h => absurd h (hnone name hname)⟩

/-- Every scan with a resolver, whether it succeeds or not, has learned what it asked for. -/
theorem exists_learned (text : String) (scope : Scope) (resolve : Resolver) :
    ∃ index, Learned resolve scope text (scan text scope (some resolve)).asked
      (scan text scope (some resolve)).scope index := by
  obtain ⟨t, back, hreaches, hends⟩ :=
    exists_reaches (some resolve) (.start scope) (Text.foldCase text).toList
  exact ⟨_, (hends.learned hreaches).1⟩

end Scanner

/-- A resolver is asked for a name at most once, where the scan comes to it first, and only for
identifiers that the scope does not know. A name without an answer is the last one and is the fault.
Whether the scan succeeds or not, its scope in the end differs from the one at the beginning at the
names with an answer alone, where it gives the answer. In a text without fault, the scan comes to
the names of its prefix tokens. -/
theorem learns_of_scan (text : String) (scope : Scope) (resolve : Resolver) :
    (scan text scope (some resolve)).Learns text scope resolve := by
  obtain ⟨t, back, hreaches, hends⟩ :=
    Scanner.exists_reaches (some resolve) (.start scope) (Text.foldCase text).toList
  obtain ⟨hlearned, hunanswered⟩ := hends.learned hreaches
  have hmeets := fun name index (h : Scanner.Meets (some resolve) scope text name index) =>
    h.lookup_or_ends hreaches hends
  have hfound : ∀ tokens, (scan text scope (some resolve)).outcome = .ok tokens → ∀ name index,
      Scanner.Meets (some resolve) scope text name index ↔
        ∃ t ∈ tokens, t.kind = .prefixOp ∧ t.spelling = name.toList ∧ t.index = index :=
    fun tokens h name index => Scanner.meets_iff_of_scan h
  unfold scan at hfound ⊢
  generalize Scanner.run _ _ _ = ended at *
  refine ⟨hlearned.nodup, fun name hname => (hlearned.unknown name hname).1, fun name => ?_,
    hlearned.ordered, hunanswered, hlearned.lookup, fun name => ?_, hfound⟩
  · rw [Scope.contains_eq_isSome_lookup]
    constructor
    · intro hname
      obtain ⟨index, -, hfirst⟩ := hlearned.first name hname
      exact ⟨by rw [(hlearned.unknown name hname).2]; rfl, index, hfirst.1⟩
    · rintro ⟨hunknown, index, hmeet⟩
      rcases hmeets name index hmeet with hknown | hasked
      · by_contra hname
        rw [hlearned.lookup, if_neg hname, hunknown] at hknown
        cases hknown
      · exact hasked
  · rw [hlearned.lookup]
    by_cases hname : name ∈ ended.asked
    · rw [if_pos hname, (hlearned.unknown name hname).2, Option.isSome_iff_ne_none]
      exact ⟨fun h => ⟨hname, h⟩, And.right⟩
    · simp [hname]

end Formula
