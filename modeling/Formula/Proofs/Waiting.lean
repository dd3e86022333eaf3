import Formula.Proofs.FirstFault
import Mathlib.Data.List.Chain

/-!
# What waits

Between two open parentheses the operators wait with the one that binds tightest on top. An arriving
operator keeps them so, since it first sends on those on top that bind tighter than itself, and a
parenthesis that closes uncovers older ones that were in order when it opened. So whatever gives way
to an arriving operator is on top, and what waits at any time can be told from the tokens alone: the
parentheses that no token behind them closes and the operators that none sends on.
-/

namespace Formula

/-- An operator of the first rank may wait above one of the second in the same parentheses: it binds
tighter, or both are powers or both stand in front of their operands. -/
def Precedence.Tops (upper lower : Nat) : Prop :=
  lower < upper ∨ lower = upper ∧ (upper = 7 ∨ upper = 8)

namespace Precedence

theorem Tops.le {upper lower : Nat} (h : Tops upper lower) : lower ≤ upper := by
  unfold Tops at h
  omega

theorem Tops.trans {upper middle lower : Nat} (h : Tops upper middle) (hlower : Tops middle lower) :
    Tops upper lower := by
  unfold Tops at *
  omega

instance : Trans Tops Tops Tops :=
  ⟨Tops.trans⟩

/-- The rank 7 is that of the power alone. -/
theorem Level.rank_eq_seven_iff {lexeme : String} {p : Precedence} (h : Level lexeme p) :
    p.rank = 7 ↔ lexeme = "^" := by
  have hrows : ∀ row ∈ table, row.2.rank = 7 ↔ row.1 = "^" := by decide
  exact hrows _ h.mem_table

end Precedence

namespace Token

variable {scope : Scope} {t : Token} {p : Precedence}

/-- Only an operator that groups from the right lets one of its own rank wait below it. -/
theorem tops_of_yields_eq_false (h : t.precedence? = some p) {rank : Nat}
    (hkeeps : p.yields rank = false) : Precedence.Tops p.rank rank := by
  rcases Nat.lt_or_eq_of_le (Precedence.le_rank_of_yields_eq_false hkeeps) with hlt | rfl
  · exact .inl hlt
  · -- An operator that groups from the left would have sent on its own rank.
    have hright : ¬p.leftAssociative = true := fun hleft => by
      simp [Precedence.yields, hleft] at hkeeps
    refine .inr ⟨rfl, ?_⟩
    unfold precedence? at h
    split at h
    · obtain ⟨hle, hgroups⟩ := (Precedence.ofInfix?_eq_some_iff.mp h).leftAssociative_iff
      rw [hgroups] at hright
      omega
    · cases h
      exact .inr rfl
    · cases h

/-- The rank tells the power, and what stands in front of its operands, from all else. -/
theorem rank_eq_iff (h : t.precedence? = some p) :
    (p.rank = 7 ↔ t.kind = .infixOp ∧ t.lexeme = "^") ∧ (p.rank = 8 ↔ t.kind = .prefixOp) := by
  unfold precedence? at h
  split at h
  · rename_i hkind
    have hlevel := Precedence.ofInfix?_eq_some_iff.mp h
    have hlt : p.rank < 8 := hlevel.rank_lt_ofPrefix
    simp [hkind, hlevel.rank_eq_seven_iff, Nat.ne_of_lt hlt]
  · rename_i hkind
    cases h
    simp [hkind, Precedence.ofPrefix]
  · cases h

/-- What waits for a token once it is read: an open parenthesis or an operator. -/
def pending? (scope : Scope) (t : Token) : Option Pending :=
  if t.kind = .parenOpen then some .parenOpen
  else
    match t.precedence?, scope.lookup t.lexeme with
    | some precedence, some entry => some (.operator ⟨t.lexeme, entry⟩ precedence.rank)
    | _, _ => none

/-- Whether the token ends the wait in its parentheses: of an operator by sending it on, of an open
parenthesis by closing it. -/
def ends (t : Token) : Pending → Bool
  | .parenOpen => t.kind = .parenClose
  | .operator _ rank => t.releases rank

theorem pending?_parenOpen (hkind : t.kind = .parenOpen) : t.pending? scope = some .parenOpen := by
  rw [pending?, if_pos hkind]

theorem pending?_operator {entry : Entry} (h : t.precedence? = some p)
    (hentry : scope.lookup t.lexeme = some entry) :
    t.pending? scope = some (.operator ⟨t.lexeme, entry⟩ p.rank) := by
  have hkind : t.kind ≠ .parenOpen := by
    rcases kind_of_precedence? h with hkind | hkind <;> simp [hkind]
  rw [pending?, if_neg hkind, h, hentry]

theorem pending?_eq_none
    (hkind : t.kind = .number ∨ t.kind = .parenClose ∨ t.kind = .separator) :
    t.pending? scope = none := by
  rcases hkind with hkind | hkind | hkind <;> simp [pending?, precedence?, hkind]

theorem ends_eq_false (hkind : t.kind = .number ∨ t.kind = .parenOpen) (pending : Pending) :
    t.ends pending = false := by
  cases pending with
  | parenOpen => rcases hkind with hkind | hkind <;> simp [ends, hkind]
  | operator op rank =>
    rcases hkind with hkind | hkind
    · exact t.releases_number hkind rank
    · exact t.releases_parenOpen hkind rank

/-- An operator waits for a token of its precedence that stands for it. -/
theorem exists_of_pending?_operator {op : Operator} {rank : Nat}
    (h : t.pending? scope = some (.operator op rank)) :
    ∃ p, t.precedence? = some p ∧ t.instruction? scope = some (.operator op) ∧ p.rank = rank := by
  unfold pending? at h
  split at h
  · cases h
  · split at h
    · rename_i precedence entry hprecedence hentry
      cases h
      exact ⟨precedence, hprecedence, instruction?_operator hprecedence hentry, rfl⟩
    · cases h

/-- Only for an opening parenthesis an open parenthesis waits. -/
theorem isSome_operator?_of_pending? (hkind : t.kind ≠ .parenOpen) {pending : Pending}
    (h : t.pending? scope = some pending) : pending.operator?.isSome = true := by
  rw [pending?, if_neg hkind] at h
  split at h
  · cases h
    rfl
  · cases h

end Token

/-- How many parentheses are open behind the tokens, with so many open before them. -/
def openBehind (depth : Nat) (tokens : List Token) : Nat :=
  tokens.foldl (fun depth t => t.depthBehind depth) depth

namespace Pending

/-- Whether it still waits behind the tokens, with so many parentheses open above it before them. -/
def outlasts (pending : Pending) : Nat → List Token → Bool
  | _, [] => true
  | above, t :: rest => !(above = 0 && t.ends pending) && pending.outlasts (t.depthBehind above) rest

/-- What of a stack outlasts a token: above the first open parenthesis the operators that the token
does not send on, that parenthesis unless the token closes it, and all below. -/
def spared (t : Token) : List Pending → List Pending
  | [] => []
  | .parenOpen :: rest => if t.kind = .parenClose then rest else .parenOpen :: rest
  | .operator op rank :: rest =>
    if t.releases rank then spared t rest else .operator op rank :: spared t rest

/-- One thing may wait right above another: two operators by their ranks. -/
def Upon : Pending → Pending → Prop
  | .operator _ upper, .operator _ lower => Precedence.Tops upper lower
  | _, _ => True

end Pending

/-- What waits of the tokens once they are read, the top first: the parentheses that no token behind
them closes and the operators that none sends on. -/
def waiting (scope : Scope) : List Token → List Pending
  | [] => []
  | t :: rest => waiting scope rest ++ (t.pending? scope).toList.filter (·.outlasts 0 rest)

section Outlasting

variable {scope : Scope} {t : Token} {tokens : List Token} {pending : Pending} {above : Nat}

theorem openBehind_cons (depth : Nat) (t : Token) (rest : List Token) :
    openBehind depth (t :: rest) = openBehind (t.depthBehind depth) rest := rfl

/-- What waits outlasts one part of the tokens and then the other. -/
theorem Pending.outlasts_append (pending : Pending) (above : Nat) (front back : List Token) :
    pending.outlasts above (front ++ back) =
      (pending.outlasts above front && pending.outlasts (openBehind above front) back) := by
  induction front generalizing above with
  | nil => rfl
  | cons t front ih =>
    rw [List.cons_append, outlasts, outlasts, ih, openBehind_cons, Bool.and_assoc]

/-- A parenthesis that was opened before is one more that is open, until it is closed. -/
theorem openBehind_succ :
    openBehind (above + 1) tokens =
      openBehind above tokens + if Pending.parenOpen.outlasts above tokens then 1 else 0 := by
  induction tokens generalizing above with
  | nil => rfl
  | cons t rest ih =>
    rw [openBehind_cons, openBehind_cons, Pending.outlasts]
    by_cases hends : t.kind = .parenClose ∧ above = 0
    · obtain ⟨hkind, rfl⟩ := hends
      simp [t.depthBehind_parenClose hkind, Token.ends, hkind]
    · have hpos : t.kind = .parenClose → above ≠ 0 := fun hkind hzero => hends ⟨hkind, hzero⟩
      have hlasts : (above = 0 && t.ends .parenOpen) = false := by
        rw [Bool.and_eq_false_iff, decide_eq_false_iff_not, Token.ends, decide_eq_false_iff_not]
        exact (Decidable.not_and_iff_or_not.mp hends).symm
      rw [t.depthBehind_add hpos, ih, hlasts, Bool.not_false, Bool.true_and]

/-- As many open parentheses wait as are open behind the tokens. -/
theorem countP_waiting (scope : Scope) (tokens : List Token) :
    (waiting scope tokens).countP (·.operator?.isNone) = openBehind 0 tokens := by
  induction tokens with
  | nil => rfl
  | cons t rest ih =>
    rw [waiting, List.countP_append, ih, openBehind_cons]
    by_cases hopen : t.kind = .parenOpen
    · rw [t.depthBehind_parenOpen hopen, openBehind_succ, Token.pending?_parenOpen hopen]
      cases h : Pending.parenOpen.outlasts 0 rest <;> simp [h, Pending.operator?]
    · have hdepth : t.depthBehind 0 = 0 := by
        unfold Token.depthBehind
        split <;> simp_all
      rw [hdepth, Nat.add_eq_left, List.countP_eq_zero]
      intro pending hpending
      have hsome := Token.isSome_operator?_of_pending? hopen
        (Option.mem_toList.mp (List.mem_of_mem_filter hpending))
      simpa using Option.ne_none_iff_isSome.mpr hsome

theorem mem_waiting (h : pending ∈ waiting scope tokens) :
    ∃ t ∈ tokens, t.pending? scope = some pending := by
  induction tokens with
  | nil => cases h
  | cons t rest ih =>
    rw [waiting] at h
    rcases List.mem_append.mp h with h | h
    · obtain ⟨u, hu, hpending⟩ := ih h
      exact ⟨u, List.mem_cons_of_mem t hu, hpending⟩
    · exact ⟨t, List.mem_cons_self, Option.mem_toList.mp (List.mem_of_mem_filter h)⟩

end Outlasting

namespace Pending

variable {scope : Scope} {t : Token} {p : Precedence} {stack left : List Pending}
  {ops : List (Operator × Nat)}

/-- A token reaches below what waits unless an open parenthesis is there. -/
theorem spared_append (t : Token) (stack below : List Pending) :
    spared t (stack ++ below) =
      spared t stack ++
        if stack.countP (·.operator?.isNone) = 0 then spared t below else below := by
  induction stack with
  | nil => rfl
  | cons pending stack ih =>
    cases pending with
    | parenOpen =>
      rw [List.cons_append, spared, spared]
      split <;> simp [operator?]
    | operator op rank =>
      rw [List.cons_append, spared, spared, ih]
      split <;> simp [operator?]

theorem spared_singleton (t : Token) (pending : Pending) :
    spared t [pending] = if t.ends pending then [] else [pending] := by
  cases pending with
  | parenOpen => simp [spared, Token.ends]
  | operator op rank => rfl

theorem spared_eq_self (h : ∀ pending, t.ends pending = false) : spared t stack = stack := by
  induction stack with
  | nil => rfl
  | cons pending stack ih =>
    have hends := h pending
    cases pending with
    | parenOpen => simpa [spared, Token.ends] using hends
    | operator op rank =>
      rw [Token.ends] at hends
      rw [spared, ih, if_neg (by simp [hends])]

/-- Operators that are sent on leave nothing. -/
theorem spared_ofOperators (hops : ∀ waiting ∈ ops, t.releases waiting.2 = true) :
    spared t (ofOperators ops ++ left) = spared t left := by
  induction ops with
  | nil => rfl
  | cons waiting ops ih =>
    rw [ofOperators_cons, List.cons_append, spared, if_pos (hops waiting (by simp))]
    exact ih fun other hother => hops other (by simp [hother])

/-- Where what is on top does not give way, nothing does: below it are only lower ranks. -/
theorem spared_of_holds (h : t.precedence? = some p) (hholds : Holds p.yields stack)
    (hchain : stack.IsChain Upon) : spared t stack = stack := by
  induction stack with
  | nil => rfl
  | cons pending stack ih =>
    cases pending with
    | parenOpen =>
      have hkind : t.kind ≠ .parenClose := by
        rcases Token.kind_of_precedence? h with hkind | hkind <;> simp [hkind]
      rw [spared, if_neg hkind]
    | operator op rank =>
      have hkeeps := hholds op rank stack rfl
      have hbelow : Holds p.yields stack := by
        rintro other lower rest rfl
        have hupon : Precedence.Tops rank lower := (List.isChain_cons_cons.mp hchain).1
        by_contra hyields
        have hrank := p.yields_mono (Bool.eq_true_of_not_eq_false hyields) hupon.le
        rw [hkeeps] at hrank
        cases hrank
      rw [spared, t.releases_of_precedence? h, if_neg (by simp [hkeeps]), ih hbelow hchain.tail]

/-- The operators of a stretch are in order as a whole. -/
theorem pairwise_of_isChain {above below : List Pending}
    (h : (above ++ ofOperators ops ++ below).IsChain Upon) :
    ops.Pairwise fun upper lower => Precedence.Tops upper.2 lower.2 := by
  have hstretch : (ofOperators ops).IsChain Upon := h.left_of_append.right_of_append
  have hops := (List.isChain_map _).mp hstretch
  have hranks : (ops.map Prod.snd).IsChain Precedence.Tops := (List.isChain_map _).mpr hops
  exact List.pairwise_map.mp hranks.pairwise

end Pending

/-- One more token spares what it does not end, and may wait on top of that. -/
theorem waiting_concat (scope : Scope) (tokens : List Token) (t : Token) :
    waiting scope (tokens ++ [t]) =
      (t.pending? scope).toList ++ Pending.spared t (waiting scope tokens) := by
  induction tokens with
  | nil => cases h : t.pending? scope <;> simp [waiting, Pending.spared, Pending.outlasts, h]
  | cons u rest ih =>
    -- What waits for `u` meets the new token only where no parenthesis is open above it.
    rw [List.cons_append, waiting, waiting, ih, List.append_assoc, Pending.spared_append,
      countP_waiting]
    congr 2
    cases u.pending? scope with
    | none => simp [Pending.spared]
    | some pending =>
      simp only [Option.toList_some, List.filter_singleton, Pending.outlasts_append,
        Pending.outlasts, Bool.and_true]
      cases pending.outlasts 0 rest with
      | false => simp [Pending.spared]
      | true =>
        by_cases hopen : openBehind 0 rest = 0
        · cases hends : t.ends pending <;> simp [hopen, hends, Pending.spared_singleton]
        · simp [hopen]

namespace Yard

open Pending

variable {scope : Scope} {tokens : List Token} {t : Token} {y next final : Yard}

/-- A step keeps what waits in order. -/
theorem Reads.isChain_upon (h : Reads scope y t next) (hy : y.stack.IsChain Upon) :
    next.stack.IsChain Upon := by
  cases h with
  | number hkind hvalue hstack houtput => rwa [hstack]
  | operator hprecedence hentry hbefore hops hleft hstack houtput =>
    rw [hbefore] at hy
    rw [hstack]
    refine hy.right_of_append.cons fun below hbelow => ?_
    cases below with
    | parenOpen => trivial
    | operator op rank =>
      obtain ⟨rest, hrest⟩ := List.head?_eq_some_iff.mp hbelow
      exact Token.tops_of_yields_eq_false hprecedence (hleft op rank rest hrest)
  | parenOpen hkind hstack houtput =>
    rw [hstack]
    exact hy.cons fun below hbelow => trivial
  | parenClose hkind hbefore hstack houtput =>
    rw [hbefore] at hy
    rw [hstack]
    exact hy.right_of_append.tail
  | separator hkind hbefore hstack houtput =>
    rw [hbefore] at hy
    rw [hstack]
    exact hy.right_of_append

/-- A run keeps what waits in order. -/
theorem Run.isChain_upon (h : Run scope y tokens final) (hy : y.stack.IsChain Upon) :
    final.stack.IsChain Upon := by
  induction h with
  | nil => exact hy
  | cons hstep hrest ih => exact ih (hstep.isChain_upon hy)

/-- Of what waits in order a step ends exactly what its token ends, though it only looks at the
top. -/
theorem Reads.stack_eq (h : Reads scope y t next) (hy : y.stack.IsChain Upon) :
    next.stack = (t.pending? scope).toList ++ spared t y.stack := by
  cases h with
  | number hkind hvalue hstack houtput =>
    rw [hstack, spared_eq_self (Token.ends_eq_false (.inl hkind)),
      Token.pending?_eq_none (.inl hkind)]
    rfl
  | @operator precedence entry ops left hprecedence hentry hbefore hops hleft hstack houtput =>
    have hreleases : ∀ waiting ∈ ops, t.releases waiting.2 = true := fun waiting hwaiting => by
      rw [t.releases_of_precedence? hprecedence]
      exact hops waiting hwaiting
    rw [hbefore] at hy
    rw [hstack, hbefore, spared_ofOperators hreleases,
      spared_of_holds hprecedence hleft hy.right_of_append,
      Token.pending?_operator hprecedence hentry]
    rfl
  | parenOpen hkind hstack houtput =>
    rw [hstack, spared_eq_self (Token.ends_eq_false (.inr hkind)), Token.pending?_parenOpen hkind]
    rfl
  | parenClose hkind hbefore hstack houtput =>
    rw [hstack, hbefore, spared_ofOperators fun waiting _ => t.releases_parenClose hkind waiting.2,
      spared, if_pos hkind, Token.pending?_eq_none (.inr (.inl hkind))]
    rfl
  | separator hkind hbefore hstack houtput =>
    rw [hstack, hbefore, spared_ofOperators fun waiting _ => t.releases_separator hkind waiting.2,
      spared, if_neg (by simp [hkind]), Token.pending?_eq_none (.inr (.inr hkind))]
    rfl

/-- From a fresh yard on, what waits can be told from the tokens. -/
theorem Run.stack_eq_waiting (h : Run scope .start tokens final) :
    final.stack = waiting scope tokens := by
  -- By induction from the end: the last token ends the wait of what came before it.
  induction tokens using List.reverseRecOn generalizing final with
  | nil =>
    cases h
    rfl
  | append_singleton tokens t ih =>
    obtain ⟨middle, hfront, hback⟩ := h.exists_middle
    cases hback with
    | cons hstep hrest =>
      cases hrest
      rw [hstep.stack_eq (hfront.isChain_upon .nil), ih hfront, waiting_concat]

/-- What waits behind tokens that have all been read. Operators that wait with no open parenthesis
between them are a stretch. -/
structure Orderly (scope : Scope) (tokens : List Token) (y : Yard) : Prop where
  /-- As many parentheses wait as the tokens open and do not close. -/
  opened : y.opened + closings (tokens.map Token.word) = openings (tokens.map Token.word)
  /-- Up a stretch the ranks never fall, and only the ranks 7 and 8 stand above themselves. -/
  ascends : ∀ above stretch below, y.stack = above ++ ofOperators stretch ++ below →
    stretch.Pairwise fun upper lower => Precedence.Tops upper.2 lower.2
  /-- Each operator is that of a token, with the rank 7 for a power alone and the rank 8 for what
  stands in front of its operands alone. -/
  ranks : ∀ op rank, .operator op rank ∈ y.stack → ∃ t ∈ tokens,
    t.instruction? scope = some (.operator op) ∧
      (rank = 7 ↔ t.kind = .infixOp ∧ t.lexeme = "^") ∧ (rank = 8 ↔ t.kind = .prefixOp)
  /-- All that waits, from the top on, is what no token behind it has closed or sent on. -/
  stack_eq : y.stack = waiting scope tokens

/-- Behind all tokens that have been read, whatever comes then, what waits is in order. -/
theorem orderly_of_foldlM (h : tokens.foldlM (step scope) .start = .ok y) :
    y.Orderly scope tokens := by
  have hrun := foldlM_step_eq_ok_iff.mp h
  have hchain := hrun.isChain_upon .nil
  have hstack := hrun.stack_eq_waiting
  refine ⟨?_, fun above stretch below hsplit => ?_, fun op rank hop => ?_, hstack⟩
  · have hcount := hrun.opened_add_closings
    rwa [show Yard.start.opened = 0 from rfl, Nat.zero_add] at hcount
  · rw [hsplit] at hchain
    exact pairwise_of_isChain hchain
  · rw [hstack] at hop
    obtain ⟨t, ht, hpending⟩ := mem_waiting hop
    obtain ⟨p, hprecedence, hinstruction, rfl⟩ := Token.exists_of_pending?_operator hpending
    exact ⟨t, ht, hinstruction, Token.rank_eq_iff hprecedence⟩

/-- The tokens of `1 + 2 ^ (3 * 4) ^ -!((5, 6 *`. -/
def openPowers : List Token :=
  [⟨.number, "1", 0⟩, ⟨.infixOp, "+", 2⟩, ⟨.number, "2", 4⟩, ⟨.infixOp, "^", 6⟩,
    ⟨.parenOpen, "(", 8⟩, ⟨.number, "3", 9⟩, ⟨.infixOp, "*", 11⟩, ⟨.number, "4", 13⟩,
    ⟨.parenClose, ")", 14⟩, ⟨.infixOp, "^", 16⟩, ⟨.prefixOp, "u-", 18⟩, ⟨.prefixOp, "!", 19⟩,
    ⟨.parenOpen, "(", 20⟩, ⟨.parenOpen, "(", 21⟩, ⟨.number, "5", 22⟩, ⟨.separator, ",", 23⟩,
    ⟨.number, "6", 25⟩, ⟨.infixOp, "*", 27⟩]

/-- Two parentheses stay open. The one that closes uncovers the first power, and the second power
comes to wait on that. -/
theorem orderly_openPowers :
    ∃ y, openPowers.foldlM (step .builtin) .start = .ok y ∧ y.Orderly .builtin openPowers ∧
      (y.stack.map fun
        | .parenOpen => none
        | .operator _ rank => some rank) =
          [some 6, none, none, some 8, some 8, some 7, some 7, some 5] := by
  obtain ⟨y, hread, hranks⟩ : ∃ y, openPowers.foldlM (step .builtin) .start = .ok y ∧
      (y.stack.map fun
        | .parenOpen => none
        | .operator _ rank => some rank) =
          [some 6, none, none, some 8, some 8, some 7, some 7, some 5] :=
    ⟨_, rfl, rfl⟩
  exact ⟨y, hread, orderly_of_foldlM hread, hranks⟩

end Yard

end Formula
