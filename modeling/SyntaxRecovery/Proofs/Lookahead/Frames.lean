import Mathlib
import SyntaxRecovery.Proofs.Lookahead.Places

/-!
# Lookahead frame by frame

A lookahead in a frame goes through the frame's rule, through that of its caller, and so on, in one
search with one memory of what it has seen. It comes to the same as separate searches. As long as the
rule of the frame is not left, it explores what a search without frames explores, and where that rule
is left no rule is open, so that the search begins anew where the caller goes on
(`Network.explores_frame_cases`). A lookahead in a frame is therefore the lookahead within the rule and,
if the rule can end, what follows the rule of the frame (`Network.lookahead_eq_union_afterFrame`).
-/

set_option autoImplicit false

namespace SyntaxRecovery

open Relation

namespace Network

variable {net : Network} {frames : CallStack}

/-- The codes that may come after the rule of a frame: the end of the input after the outermost rule,
the marker if the calling state does not begin with a call, else those that may come next where the
caller goes on. -/
def afterFrame (net : Network) (frames : CallStack) (f : Frame) : Noted TokenSet :=
  if f.isOutermost then pure {TokenCode.endOfInput}
  else match net.returnState? f.invoking with
    | none => pure {TokenCode.ruleEnd}
    | some follow => net.lookahead frames follow f.parent

section Frame

variable {x : StateRef} {b : FrameRef} {f : Frame} {k : TokenCode}

/-- What a search within a rule explores, it explores in every frame. -/
theorem Explores.in_frame {p q : Place} (h : net.Explores ∅ p q) (frames : CallStack)
    (b : FrameRef) : net.Explores frames ⟨p.state, p.returns, b⟩ ⟨q.state, q.returns, b⟩ := by
  induction h with
  | refl => exact ReflTransGen.refl
  | tail _ hstep ih =>
    apply ih.tail
    cases hstep with
    | free he hfree => exact .free he hfree
    | call he hcall hopen => exact .call he hcall hopen
    | ret hx => exact .ret hx
    | leave _ hf _ _ =>
      rw [CallStack.get?_empty] at hf
      cases hf

/-- A search in a frame stays in the rule of the frame, or comes to an end of that rule and goes on
from there. -/
theorem explores_frame_cases (hf : frames.get? b = some f) {q : Place}
    (h : net.Explores frames ⟨x, [], b⟩ q) :
    (q.base = b ∧ net.Explores ∅ ⟨x, [], none⟩ ⟨q.state, q.returns, none⟩) ∨
    ∃ u, net.Explores ∅ ⟨x, [], none⟩ ⟨u, [], none⟩ ∧ net.StopsAt u ∧
      net.Explores frames ⟨u, [], b⟩ q := by
  induction h with
  | refl => exact Or.inl ⟨rfl, ReflTransGen.refl⟩
  | tail _ hstep ih =>
    rcases ih with ⟨hbase, hlocal⟩ | ⟨u, hlocal, hu, hrest⟩
    · cases hstep with
      | free he hfree => exact Or.inl ⟨hbase, hlocal.tail (.free he hfree)⟩
      | call he hcall hopen => exact Or.inl ⟨hbase, hlocal.tail (.call he hcall hopen)⟩
      | ret hx => exact Or.inl ⟨hbase, hlocal.tail (.ret hx)⟩
      | leave hx hg hin hreturn =>
        cases hbase
        exact Or.inr ⟨_, hlocal, hx, ReflTransGen.single (.leave hx hg hin hreturn)⟩
    · exact Or.inr ⟨u, hlocal, hu, hrest.tail hstep⟩

/-- From an end of the rule of a frame a search has one way to go on, to the caller. -/
theorem explores_of_stopsAt (hx : net.StopsAt x) (hf : frames.get? b = some f) {q : Place}
    (h : net.Explores frames ⟨x, [], b⟩ q) :
    q = ⟨x, [], b⟩ ∨ ∃ follow, f.isOutermost = false ∧ net.returnState? f.invoking = some follow ∧
      net.Explores frames ⟨follow, [], f.parent⟩ q := by
  rcases ReflTransGen.cases_head h with rfl | ⟨p, hstep, hrest⟩
  · exact Or.inl rfl
  · right
    cases hstep with
    | free he _ => exact absurd hx he.not_stopsAt
    | call he _ _ => exact absurd hx he.not_stopsAt
    | leave _ hg hin hreturn =>
      cases hf.symm.trans hg
      exact ⟨_, hin, hreturn, hrest⟩

/-- What follows the rule of a frame is what a search shows from an end of that rule. -/
theorem mem_afterFrame_iff (hlinked : net.Linked) (hclosed : net.Closed) (hx : net.StopsAt x)
    (hf : frames.get? b = some f) (hdone : (net.afterFrame frames f).notes = []) :
    k ∈ (net.afterFrame frames f).value ↔
      ∃ q, net.Explores frames ⟨x, [], b⟩ q ∧ net.Offers frames q k := by
  unfold afterFrame at hdone ⊢
  constructor
  · intro hk
    split at hk
    · next hout =>
      cases TokenSet.mem_singleton.1 hk
      exact ⟨_, ReflTransGen.refl, .outermost hx hf hout⟩
    · next hin =>
      have hin := Bool.eq_false_iff.2 hin
      split at hk
      · next hreturn =>
        cases TokenSet.mem_singleton.1 hk
        exact ⟨_, ReflTransGen.refl, .noReturn hx hf hin hreturn⟩
      · next follow hreturn =>
        simp only [hin, Bool.false_eq_true, if_false, hreturn] at hdone
        obtain ⟨q, hq, hoffer⟩ := (mem_lookahead_iff_explores hlinked hclosed hdone).1 hk
        exact ⟨q, ReflTransGen.head (.leave hx hf hin hreturn) hq, hoffer⟩
  · rintro ⟨q, hq, hoffer⟩
    rcases explores_of_stopsAt hx hf hq with rfl | ⟨follow, hin, hreturn, hrest⟩
    · -- the end itself, where the frame says what follows
      cases hoffer with
      | label he _ _ => exact absurd hx he.not_stopsAt
      | noFrame _ hnone => cases hf.symm.trans hnone
      | outermost _ hg hout =>
        cases hf.symm.trans hg
        simp [hout]
      | noReturn _ hg hin hreturn =>
        cases hf.symm.trans hg
        simp [hin, hreturn]
    · simp only [hin, Bool.false_eq_true, if_false, hreturn] at hdone ⊢
      exact (mem_lookahead_iff_explores hlinked hclosed hdone).2 ⟨q, hrest, hoffer⟩

/-- What is on offer is read there, or the place is an end of its rule. -/
theorem reads_or_stopsAt_of_offers {p : Place} (h : net.Offers frames p k) :
    net.Reads p.state k ∨ p.returns = [] ∧ net.StopsAt p.state := by
  cases h with
  | label he hcodes hk => exact Or.inl ⟨_, _, he, hcodes, hk⟩
  | noFrame hx _ => exact Or.inr ⟨rfl, hx⟩
  | outermost hx _ _ => exact Or.inr ⟨rfl, hx⟩
  | noReturn hx _ _ _ => exact Or.inr ⟨rfl, hx⟩

/-- One search in a frame shows what is read within the rule, and from an end of the rule what a
search shows there. -/
theorem exists_explores_frame_iff (hf : frames.get? b = some f) :
    (∃ q, net.Explores frames ⟨x, [], b⟩ q ∧ net.Offers frames q k) ↔
      (∃ q, net.Explores ∅ ⟨x, [], none⟩ q ∧ net.Reads q.state k) ∨
      ∃ u, net.Explores ∅ ⟨x, [], none⟩ ⟨u, [], none⟩ ∧ net.StopsAt u ∧
        ∃ q, net.Explores frames ⟨u, [], b⟩ q ∧ net.Offers frames q k := by
  constructor
  · rintro ⟨q, hq, hk⟩
    rcases explores_frame_cases hf hq with ⟨hbase, hlocal⟩ | ⟨u, hlocal, hu, hrest⟩
    · rcases reads_or_stopsAt_of_offers hk with hreads | ⟨hreturns, hx⟩
      · exact Or.inl ⟨_, hlocal, hreads⟩
      · obtain ⟨u, σ, b'⟩ := q
        cases hbase
        cases hreturns
        exact Or.inr ⟨u, hlocal, hx, _, ReflTransGen.refl, hk⟩
    · exact Or.inr ⟨u, hlocal, hu, q, hrest, hk⟩
  · rintro (⟨q, hq, hreads⟩ | ⟨u, hlocal, -, q, hq, hk⟩)
    · exact ⟨_, hq.in_frame frames b, hreads.offers⟩
    · exact ⟨q, (hlocal.in_frame frames b).trans hq, hk⟩

/-- A lookahead in a frame shows what the lookahead within the rule shows, but for the marker of the
rule's end, and in the place of the marker what follows the rule of the frame. Rules that call
themselves or can end without a token make no difference. -/
theorem lookahead_eq_union_afterFrame (hlinked : net.Linked) (hclosed : net.Closed)
    (hunmarked : net.Unmarked) (frames : CallStack) (state : StateRef) {frame : FrameRef}
    (hf : frames.get? frame = some f) (hdone : (net.lookahead frames state frame).notes = [])
    (hlocal : (net.localLookahead state).notes = [])
    (hafter : .ruleEnd ∈ (net.localLookahead state).value → (net.afterFrame frames f).notes = []) :
    (net.lookahead frames state frame).value =
      (net.localLookahead state).value.erase .ruleEnd ∪
        if .ruleEnd ∈ (net.localLookahead state).value then (net.afterFrame frames f).value
        else ∅ := by
  apply TokenSet.eq_of_mem_iff
  intro k
  rw [mem_lookahead_iff_explores hlinked hclosed hdone, exists_explores_frame_iff hf,
    TokenSet.mem_union, mem_erase_localLookahead_iff hlinked hclosed hunmarked hlocal]
  apply or_congr_right
  have hend := ruleEnd_mem_localLookahead_iff hlinked hclosed hunmarked hlocal
  split
  · next hmark =>
    obtain ⟨u, hu, hstop⟩ := hend.1 hmark
    have hiff := fun (u : StateRef) (hu : net.StopsAt u) =>
      mem_afterFrame_iff (k := k) hlinked hclosed hu hf (hafter hmark)
    constructor
    · rintro ⟨u, -, hstop, hk⟩
      exact (hiff u hstop).2 hk
    · intro hk
      exact ⟨u, hu, hstop, (hiff u hstop).1 hk⟩
  · next hmark =>
    constructor
    · rintro ⟨u, hu, hstop, -⟩
      exact absurd (hend.2 ⟨u, hu, hstop⟩) hmark
    · intro hk
      exact absurd hk TokenSet.not_mem_empty

end Frame

/-! ## A list within a line -/

/-- Instructions for the rules `list : list name | ` and `line : list ';'`; the codes are 1 for a name
and 2 for `';'`. A list can be empty and begins with a list. -/
def listInstructions : List Instruction :=
  [.rule, .rule, .state 0 .basic, .state 1 .basic, .call (reference 0) 0 (reference 4),
    .one (reference 4) (reference 1) 1, .epsilon (reference 0) (reference 1),
    .call (reference 2) 0 (reference 5), .one (reference 5) (reference 3) 2]

/-- The network of lists. -/
def lists : Network := ((empty 2).buildAll listInstructions).value.2

theorem lists_linked : lists.Linked := linked_buildAll 2 listInstructions (by decide)

theorem lists_closed : lists.Closed := closed_of_forall_mem (by decide)

theorem lists_unmarked : lists.Unmarked := unmarked_of_forall_mem (by decide)

/-- A list that is parsed in a line. -/
def listFrame : Frame := { rule := 0, invoking := reference 2, parent := reference 0 }

/-- The line and the list in it. -/
def listFrames : CallStack := (∅ : CallStack).applyAll [.push 1 none, .push 0 (reference 2)]

/-- At the start of the list a name can come, and as the list can be empty, also the `';'` of the
line. -/
theorem lookahead_in_list :
    lists.Linked ∧ lists.Closed ∧ lists.Unmarked ∧ listFrames.get? (reference 1) = some listFrame ∧
      (lists.lookahead listFrames (reference 0) (reference 1)).notes = [] ∧
      (lists.localLookahead (reference 0)).notes = [] ∧
      .ruleEnd ∈ (lists.localLookahead (reference 0)).value ∧
      (lists.afterFrame listFrames listFrame).notes = [] ∧
      (lists.lookahead listFrames (reference 0) (reference 1)).value = .range 1 2 ∧
      (lists.localLookahead (reference 0)).value.erase .ruleEnd ∪
        (if .ruleEnd ∈ (lists.localLookahead (reference 0)).value
          then (lists.afterFrame listFrames listFrame).value else ∅) = .range 1 2 := by
  have hf : listFrames.get? (reference 1) = some listFrame := by decide
  have hdone : (lists.lookahead listFrames (reference 0) (reference 1)).notes = [] := by cbv
  have hlocal : (lists.localLookahead (reference 0)).notes = [] := by cbv
  have hmark : (lists.localLookahead (reference 0)).value.contains .ruleEnd = true := by cbv
  have hafter : (lists.afterFrame listFrames listFrame).notes = [] := by cbv
  have hvalue : (lists.lookahead listFrames (reference 0) (reference 1)).value = .range 1 2 := by cbv
  have hunion := lookahead_eq_union_afterFrame lists_linked lists_closed lists_unmarked listFrames
    (reference 0) hf hdone hlocal fun _ => hafter
  exact ⟨lists_linked, lists_closed, lists_unmarked, hf, hdone, hlocal, hmark, hafter, hvalue,
    hunion.symm.trans hvalue⟩

end Network

end SyntaxRecovery
