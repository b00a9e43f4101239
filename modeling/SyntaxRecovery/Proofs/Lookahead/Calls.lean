import SyntaxRecovery.Proofs.Lookahead.Exactness
import SyntaxRecovery.Proofs.Lookahead.Frames

/-!
# Lookahead across a call

Behind a call a search goes through the called rule and returns to where its caller goes on. It differs
from a search that begins in the called rule in one thing: the rule is open, and a call of itself is
left out. What the search from its start finds behind such a call it has found before the call, as long
as the inner rule is not left. So the end of the rule is not missed
(`Network.explores_end_of_call`), and no token is, unless the rule can end without a token and so lead
to what comes after the call left out (`Network.localLookahead_call`). There it is missed
(`Network.name_missed_before_line`).
-/

set_option autoImplicit false

namespace SyntaxRecovery

open Relation

namespace Network

variable {net : Network} {rule : Nat} {start follow : StateRef}

/-- The open rules below a return stay open above it, and so is the rule that will return there. -/
theorem openRules_append (x : StateRef) (above : List StateRef) (follow : StateRef)
    (σ : List StateRef) :
    net.openRules x (above ++ follow :: σ) =
      net.openRules x above ++ ((net.rootRule x above).toList ++ net.openRules follow σ) := by
  induction above generalizing x with
  | nil => rfl
  | cons y above ih => rw [List.cons_append, openRules, openRules, rootRule, ih, List.append_assoc]

theorem mem_openRules_append {x : StateRef} {above : List StateRef} (below : List StateRef)
    (h : rule ∈ net.openRules x above) : rule ∈ net.openRules x (above ++ below) := by
  cases below with
  | nil => rwa [List.append_nil]
  | cons follow σ =>
    rw [openRules_append]
    exact List.mem_append_left _ h

/-- A search with a return below goes through the rule of its first state as a search without it does,
or comes to an end of that rule and goes on at the return. -/
theorem explores_return_cases {frames : CallStack} {x : StateRef} {σ : List StateRef} {b : FrameRef}
    {q : Place} (h : net.Explores frames ⟨x, follow :: σ, b⟩ q) :
    (∃ y above, q = ⟨y, above ++ follow :: σ, b⟩ ∧ net.Explores frames ⟨x, [], b⟩ ⟨y, above, b⟩) ∨
    ∃ u, net.Explores frames ⟨x, [], b⟩ ⟨u, [], b⟩ ∧ net.StopsAt u ∧
      net.Explores frames ⟨follow, σ, b⟩ q := by
  induction h with
  | refl => exact Or.inl ⟨x, [], rfl, ReflTransGen.refl⟩
  | tail _ hstep ih =>
    rcases ih with ⟨y, above, rfl, hexplored⟩ | ⟨u, hexplored, hu, hrest⟩
    · generalize hτ : above ++ follow :: σ = τ at hstep
      cases hstep with
      | free he hfree =>
        subst hτ
        exact Or.inl ⟨_, above, rfl, hexplored.tail (.free he hfree)⟩
      | @call _ follow' _ _ e rule he hcall hopen =>
        subst hτ
        -- without the return below there are no more open rules
        refine Or.inl ⟨_, follow' :: above, rfl, hexplored.tail (.call he hcall ?_)⟩
        intro hmem
        exact hopen (mem_openRules_append (follow :: σ) hmem)
      | ret hy =>
        cases above with
        | nil =>
          cases hτ
          exact Or.inr ⟨y, hexplored, hy, ReflTransGen.refl⟩
        | cons z above =>
          obtain ⟨rfl, rfl⟩ := List.cons.inj hτ
          exact Or.inl ⟨z, above, rfl, hexplored.tail (.ret hy)⟩
      | leave _ _ _ _ => exact absurd hτ (by simp)
    · exact Or.inr ⟨u, hexplored, hu, hrest.tail hstep⟩

/-- If a search comes to an end of its first rule with a return below, then it does so without. -/
theorem exists_end_of_explores {frames : CallStack} {x u : StateRef} {σ : List StateRef}
    {b : FrameRef} (hu : net.StopsAt u)
    (h : net.Explores frames ⟨x, follow :: σ, b⟩ ⟨u, follow :: σ, b⟩) :
    ∃ v, net.Explores frames ⟨x, [], b⟩ ⟨v, [], b⟩ ∧ net.StopsAt v := by
  rcases explores_return_cases h with ⟨y, above, hq, hexplored⟩ | ⟨v, hexplored, hv, -⟩
  · obtain ⟨rfl, hσ, -⟩ := Place.mk.inj hq
    rw [List.self_eq_append_left] at hσ
    subst hσ
    exact ⟨u, hexplored, hu⟩
  · exact ⟨v, hexplored, hv⟩

/-! ## The called rule, open and not -/

/-- The search behind a call of a rule has come to the part of a place above the innermost call of
that rule, if there is one in the place. -/
def Mirrors (net : Network) (rule : Nat) (start follow x : StateRef) (σ : List StateRef) : Prop :=
  ∃ above below, σ = above ++ below ∧ (below = [] ∨ net.LeftRecursive rule) ∧
    net.Within start x above ∧
    net.Explores ∅ ⟨start, [follow], none⟩ ⟨x, above ++ [follow], none⟩

/-- The search behind a call of a rule has come to an end of the rule, which can be called again from
its start. -/
def EndsDoubly (net : Network) (rule : Nat) (start follow : StateRef) : Prop :=
  net.LeftRecursive rule ∧ ∃ u, net.StopsAt u ∧
    net.Explores ∅ ⟨start, [follow], none⟩ ⟨u, [follow], none⟩

section Called

variable (hlinked : net.Linked) (hclosed : net.Closed) (hstart : net.start? rule = some start)

include hlinked hclosed hstart

/-- Within a called rule the open rules are those that a search from its start has open, and the rule
itself. -/
theorem openRules_of_within {x : StateRef} {above : List StateRef} (h : net.Within start x above) :
    net.openRules x (above ++ [follow]) = net.openRules x above ++ [rule] := by
  have hroot : net.rootRule x above = some rule :=
    (h.rootRule_eq hclosed).trans (hlinked.rule_of_start rule start hstart)
  rw [openRules_append, hroot]
  rfl

/-- What the search from the start of a rule explores, the search behind a call of the rule mirrors, up
to an end of the rule after an inner call of it. -/
theorem mirrors_of_explores (follow : StateRef) {q : Place}
    (h : net.Explores ∅ ⟨start, [], none⟩ q) :
    net.Mirrors rule start follow q.state q.returns ∨ net.EndsDoubly rule start follow := by
  induction h with
  | refl => exact Or.inl ⟨[], [], rfl, Or.inl rfl, within_refl start, ReflTransGen.refl⟩
  | @tail p q hp hstep ih =>
    have hwalk := within_of_walk (Explores.walk hp)
    rcases ih with ⟨above, below, hσ, hrec, hwithin, hexplored⟩ | hends
    · cases hstep with
      | free he hfree =>
        exact Or.inl ⟨above, below, hσ, hrec, hwithin.free he hfree, hexplored.tail (.free he hfree)⟩
      | @call x follow' σ b e rule' he hcall hopen =>
        left
        cases hσ
        by_cases hrule : rule' = rule
        · -- an inner call of the rule: its start has been explored, with nothing above
          subst hrule
          have htarget := start?_of_call hlinked he hcall
          rw [hstart] at htarget
          cases htarget
          refine ⟨[], follow' :: (above ++ below), rfl, Or.inr ?_, within_refl _, ReflTransGen.refl⟩
          exact ⟨_, x, _, e, follow', hstart, hwalk, he, hcall⟩
        · refine ⟨follow' :: above, below, rfl, hrec, hwithin.call he hcall,
            hexplored.tail (.call he hcall ?_)⟩
          rw [openRules_of_within hlinked hclosed hstart hwithin, List.mem_append,
            List.mem_singleton, not_or]
          refine ⟨?_, hrule⟩
          intro hmem
          exact hopen (mem_openRules_append below hmem)
      | @ret x follow' σ b hx =>
        cases above with
        | nil =>
          -- the inner rule ends, and so does the called one
          right
          rcases hrec with rfl | hrec
          · cases hσ
          · exact ⟨hrec, x, hx, hexplored⟩
        | cons y above =>
          cases hσ
          exact Or.inl ⟨above, below, rfl, hrec, hwithin.ret hx, hexplored.tail (.ret hx)⟩
      | leave _ hf _ _ =>
        rw [CallStack.get?_empty] at hf
        cases hf
    · exact Or.inr hends

/-- If the search from the start of a rule comes to an end of the rule, then so does the search behind
a call of it. -/
theorem explores_end_of_call (follow : StateRef) {u : StateRef} (hu : net.StopsAt u)
    (h : net.Explores ∅ ⟨start, [], none⟩ ⟨u, [], none⟩) :
    net.Explores ∅ ⟨start, [follow], none⟩ ⟨follow, [], none⟩ := by
  rcases mirrors_of_explores hlinked hclosed hstart follow h with
    ⟨above, below, hσ, -, -, hexplored⟩ | ⟨-, v, hv, hexplored⟩
  · obtain ⟨rfl, rfl⟩ := List.append_eq_nil_iff.1 hσ.symm
    exact hexplored.tail (.ret hu)
  · exact hexplored.tail (.ret hv)

/-- What is read from the start of a rule is read behind a call of it, unless the rule can end and can
also be called again from its start. -/
theorem exists_reads_behind_call (follow : StateRef) {q : Place} {k : TokenCode}
    (h : net.Explores ∅ ⟨start, [], none⟩ q) (hk : net.Reads q.state k)
    (hrec : (∃ u, net.Explores ∅ ⟨start, [], none⟩ ⟨u, [], none⟩ ∧ net.StopsAt u) →
      ¬ net.LeftRecursive rule) :
    ∃ p, net.Explores ∅ ⟨start, [follow], none⟩ p ∧ net.Reads p.state k := by
  rcases mirrors_of_explores hlinked hclosed hstart follow h with
    ⟨above, -, -, -, -, hexplored⟩ | ⟨hleft, u, hu, hexplored⟩
  · exact ⟨_, hexplored, hk⟩
  · exact absurd hleft (hrec (exists_end_of_explores hu hexplored))

end Called

/-! ## Lookahead where there is nothing but a call -/

section OnlyCall

variable {x : StateRef} {s : State} {e : Edge} {k : TokenCode} (hs : net.state? x = some s)
  (hgo : s.isStop = false) (honly : s.edges = [e]) (hcall : e.move = .call rule follow)

include hs honly hcall

omit hcall in
theorem eq_of_hasEdge {e' : Edge} (h : net.HasEdge x e') : e' = e := by
  obtain ⟨t, ht, -, he⟩ := h
  cases hs.symm.trans ht
  rw [honly] at he
  exact List.mem_singleton.1 he

theorem not_reads_of_only_call : ¬ net.Reads x k := by
  rintro ⟨e', codes, he, hcodes, -⟩
  cases eq_of_hasEdge hs honly he
  rw [hcall] at hcodes
  cases hcodes

include hgo

/-- A state with nothing but a call offers what is explored behind the call. -/
theorem mem_localLookahead_only_call_iff (hlinked : net.Linked) (hclosed : net.Closed)
    (hstart : net.start? rule = some start) (hdone : (net.localLookahead x).notes = []) :
    k ∈ (net.localLookahead x).value ↔
      ∃ q, net.Explores ∅ ⟨start, [follow], none⟩ q ∧ net.Offers ∅ q k := by
  have he : net.HasEdge x e := ⟨s, hs, hgo, honly ▸ List.mem_singleton_self e⟩
  have htarget : start = e.target := by
    have h := start?_of_call hlinked he hcall
    exact Option.some.inj (hstart.symm.trans h)
  rw [localLookahead, mem_lookahead_iff_explores hlinked hclosed hdone, htarget]
  constructor
  · rintro ⟨q, hq, hk⟩
    rcases ReflTransGen.cases_head hq with rfl | ⟨p, hstep, hrest⟩
    · rcases offers_empty_iff.1 hk with hreads | ⟨-, -, hx⟩
      · exact absurd hreads (not_reads_of_only_call hs honly hcall)
      · exact absurd hx he.not_stopsAt
    · cases hstep with
      | free he' hfree =>
        cases eq_of_hasEdge hs honly he'
        rw [hcall] at hfree
        cases hfree
      | call he' hcall' _ =>
        cases eq_of_hasEdge hs honly he'
        cases hcall.symm.trans hcall'
        exact ⟨q, hrest, hk⟩
      | leave hx _ _ _ => exact absurd hx he.not_stopsAt
  · rintro ⟨q, hq, hk⟩
    exact ⟨q, ReflTransGen.head (.call he hcall List.not_mem_nil) hq, hk⟩

/-- A state with nothing but a call shows no more than the start of the called rule, and in the place of
the marker of its end what comes after the call. It shows all that comes after the call if the rule can
end, and it shows all of both unless the rule can end and can also be called again from its own
start. -/
theorem localLookahead_call (hlinked : net.Linked) (hclosed : net.Closed)
    (hunmarked : net.Unmarked) (hstart : net.start? rule = some start)
    (hdone : (net.localLookahead x).notes = []) (hinner : (net.localLookahead start).notes = [])
    (hafter : (net.localLookahead follow).notes = []) :
    let inner := (net.localLookahead start).value
    let after := (net.localLookahead follow).value
    let whole := inner.erase .ruleEnd ∪ if .ruleEnd ∈ inner then after else ∅
    (∀ k ∈ (net.localLookahead x).value, k ∈ whole) ∧
    (.ruleEnd ∈ inner → ∀ k ∈ after, k ∈ (net.localLookahead x).value) ∧
    ((.ruleEnd ∈ inner → ¬ net.LeftRecursive rule) → (net.localLookahead x).value = whole) := by
  intro inner after whole
  have hlocal := fun k =>
    mem_localLookahead_only_call_iff (k := k) hs hgo honly hcall hlinked hclosed hstart hdone
  have hread := fun k =>
    mem_erase_localLookahead_iff (k := k) hlinked hclosed hunmarked hinner
  have hend := ruleEnd_mem_localLookahead_iff hlinked hclosed hunmarked hinner
  have hrest := fun k => mem_lookahead_iff_explores (k := k) hlinked hclosed hafter
  have hsound : ∀ k ∈ (net.localLookahead x).value, k ∈ whole := by
    intro k hk
    obtain ⟨q, hq, hoffer⟩ := (hlocal k).1 hk
    apply TokenSet.mem_union.2
    rcases explores_return_cases hq with ⟨y, above, rfl, hexplored⟩ | ⟨u, hexplored, hu, hback⟩
    · left
      rcases offers_empty_iff.1 hoffer with hreads | ⟨-, hreturns, -⟩
      · exact (hread k).2 ⟨_, hexplored, hreads⟩
      · exact absurd hreturns (by simp)
    · right
      rw [if_pos (hend.2 ⟨u, hexplored, hu⟩)]
      exact (hrest k).2 ⟨q, hback, hoffer⟩
  have hpast : .ruleEnd ∈ inner → ∀ k ∈ after, k ∈ (net.localLookahead x).value := by
    intro hmark k hk
    obtain ⟨u, hexplored, hu⟩ := hend.1 hmark
    obtain ⟨q, hq, hoffer⟩ := (hrest k).1 hk
    have hback := explores_end_of_call hlinked hclosed hstart follow hu hexplored
    exact (hlocal k).2 ⟨q, hback.trans hq, hoffer⟩
  refine ⟨hsound, hpast, ?_⟩
  intro hrec
  apply TokenSet.eq_of_mem_iff
  intro k
  refine ⟨hsound k, ?_⟩
  intro hk
  rcases TokenSet.mem_union.1 hk with hk | hk
  · obtain ⟨q, hq, hreads⟩ := (hread k).1 hk
    obtain ⟨p, hp, hreads⟩ := exists_reads_behind_call hlinked hclosed hstart follow hq hreads
      fun hends => hrec (hend.2 hends)
    exact (hlocal k).2 ⟨p, hp, hreads.offers⟩
  · split at hk
    · next hmark => exact hpast hmark k hk
    · exact absurd hk TokenSet.not_mem_empty

end OnlyCall

/-- The state in which a sum calls a sum. -/
def sumCall : State :=
  { ref := reference 2, kind := .basic, rule := 0
    edges := [{ target := reference 0, move := .call 0 (reference 3) }] }

/-- A sum within a sum can begin with what a sum can begin with, a name. -/
theorem name_shown_before_sum :
    sums.Linked ∧ sums.Closed ∧ sums.Unmarked ∧ sums.state? (reference 2) = some sumCall ∧
      sumCall.isStop = false ∧ sums.start? 0 = some (reference 0) ∧
      (sums.localLookahead (reference 2)).notes = [] ∧
      (sums.localLookahead (reference 0)).notes = [] ∧
      (sums.localLookahead (reference 3)).notes = [] ∧
      .ruleEnd ∉ (sums.localLookahead (reference 0)).value ∧
      (sums.localLookahead (reference 2)).value =
        (sums.localLookahead (reference 0)).value.erase .ruleEnd ∪
          (if .ruleEnd ∈ (sums.localLookahead (reference 0)).value
            then (sums.localLookahead (reference 3)).value else ∅) ∧
      2 ∈ (sums.localLookahead (reference 2)).value := by
  have hunmarked : sums.Unmarked := unmarked_of_forall_mem (by decide)
  have hs : sums.state? (reference 2) = some sumCall := by decide
  have hstart : sums.start? 0 = some (reference 0) := by decide
  have hdone : (sums.localLookahead (reference 2)).notes = [] := by cbv
  have hinner : (sums.localLookahead (reference 0)).notes = [] := by cbv
  have hafter : (sums.localLookahead (reference 3)).notes = [] := by cbv
  have hmark : (sums.localLookahead (reference 0)).value.contains .ruleEnd = false := by cbv
  have hname : (sums.localLookahead (reference 2)).value.contains 2 = true := by cbv
  have hmark' : .ruleEnd ∉ (sums.localLookahead (reference 0)).value := Bool.eq_false_iff.1 hmark
  obtain ⟨-, -, hequal⟩ := localLookahead_call hs rfl rfl rfl sums_linked sums_closed hunmarked
    hstart hdone hinner hafter
  exact ⟨sums_linked, sums_closed, hunmarked, hs, rfl, hstart, hdone, hinner, hafter, hmark',
    hequal fun h => absurd h hmark', hname⟩

/-! ## Where a call hides something -/

/-- The state in which a line calls a list. -/
def listCall : State :=
  { ref := reference 2, kind := .ruleStart, rule := 1
    edges := [{ target := reference 0, move := .call 0 (reference 5) }] }

/-- Instructions for two rules. The second reads a token with code 1; from the end of the first a call
of the second leads on, which is no way to go. -/
def deadCallInstructions : List Instruction :=
  [.rule, .rule, .state 0 .basic, .one (reference 2) (reference 3) 1,
    .call (reference 1) 1 (reference 4)]

/-- The network with a call from the end of a rule. -/
def deadCalls : Network := ((empty 1).buildAll deadCallInstructions).value.2

/-- The end of a rule with the call. -/
def deadCall : State :=
  { ref := reference 1, kind := .ruleStop, rule := 0
    edges := [{ target := reference 2, move := .call 1 (reference 4) }] }

/-- A list can begin with a name, since it can begin with an empty list; where a line calls a list,
the name is missed. And at the end of a rule a call is not seen. -/
theorem name_missed_before_line :
    (lists.Linked ∧ lists.Closed ∧ lists.Unmarked ∧ lists.state? (reference 2) = some listCall ∧
      lists.start? 0 = some (reference 0) ∧ (lists.localLookahead (reference 2)).notes = [] ∧
      (lists.localLookahead (reference 0)).notes = [] ∧
      (lists.localLookahead (reference 5)).notes = [] ∧
      1 ∉ (lists.localLookahead (reference 2)).value ∧
      1 ∈ (lists.localLookahead (reference 0)).value.erase .ruleEnd ∪
        (if .ruleEnd ∈ (lists.localLookahead (reference 0)).value
          then (lists.localLookahead (reference 5)).value else ∅)) ∧
    (deadCalls.Linked ∧ deadCalls.Closed ∧ deadCalls.Unmarked ∧
      deadCalls.state? (reference 1) = some deadCall ∧
      deadCalls.start? 1 = some (reference 2) ∧
      (deadCalls.localLookahead (reference 1)).notes = [] ∧
      (deadCalls.localLookahead (reference 2)).notes = [] ∧
      (deadCalls.localLookahead (reference 4)).notes = [] ∧
      1 ∉ (deadCalls.localLookahead (reference 1)).value ∧
      1 ∈ (deadCalls.localLookahead (reference 2)).value.erase .ruleEnd ∪
        (if .ruleEnd ∈ (deadCalls.localLookahead (reference 2)).value
          then (deadCalls.localLookahead (reference 4)).value else ∅)) := by
  have hline : (lists.localLookahead (reference 2)).value.contains 1 = false := by cbv
  have hlist : ((lists.localLookahead (reference 0)).value.erase .ruleEnd).contains 1 = true := by cbv
  have hend : (deadCalls.localLookahead (reference 1)).value.contains 1 = false := by cbv
  have hdead : ((deadCalls.localLookahead (reference 2)).value.erase .ruleEnd).contains 1 = true := by
    cbv
  constructor
  · refine ⟨lists_linked, lists_closed, lists_unmarked, by decide, by decide, by cbv, by cbv, by cbv,
      Bool.eq_false_iff.1 hline, ?_⟩
    exact TokenSet.mem_union.2 (Or.inl hlist)
  · refine ⟨linked_buildAll 1 deadCallInstructions (by decide), closed_of_forall_mem (by decide),
      unmarked_of_forall_mem (by decide), by decide, by decide, by cbv, by cbv, by cbv,
      Bool.eq_false_iff.1 hend, ?_⟩
    exact TokenSet.mem_union.2 (Or.inl hdead)

end Network

end SyntaxRecovery
