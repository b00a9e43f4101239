import Mathlib.Logic.Relation
import SyntaxRecovery.Network.Basic
import SyntaxRecovery.Proofs.CallStack.Chain

/-!
# Walks through a network

What can come next at a place of a network, told without a search. A walk goes along the edges that
read no token: a call puts the state in which its rule goes on on top of the returns, and where a rule
stops, the walk returns to the state on top and to no other. Where no return is left, the frame of the
rule says what follows (`Network.Step`, `Network.Offers`). No rule is closed to a walk.

A walk is summarised rule by rule: `Network.Across` crosses a part of one rule together with the rules
called there, `Network.First` finds a code at or below a state before its rule ends, and
`Network.Found` strings these together along the returns and the frames. Every code that a walk comes
to is found so (`Network.found_of_walk`).
-/

set_option autoImplicit false

namespace SyntaxRecovery

open Relation

/-- Where a walk stands. -/
@[ext] structure Place where
  /-- The state. -/
  state : StateRef
  /-- The states in which the callers of the rules entered go on, innermost first. -/
  returns : List StateRef
  /-- Frame of the rule that is left when there is no return. -/
  base : FrameRef

/-- Whether a move takes neither a token nor a rule. -/
def Move.isFree : Move → Bool
  | epsilon | predicate _ _ => true
  | _ => false

theorem Move.isSilent_of_isFree {m : Move} (h : m.isFree = true) : m.isSilent = true := by
  cases m with
  | epsilon => rfl
  | predicate rule index => rfl
  | _ => exact absurd h Bool.false_ne_true

namespace Network

/-- An edge leaves a state that does not end its rule. -/
def HasEdge (net : Network) (x : StateRef) (e : Edge) : Prop :=
  ∃ s, net.state? x = some s ∧ s.isStop = false ∧ e ∈ s.edges

/-- A state ends its rule. -/
def StopsAt (net : Network) (x : StateRef) : Prop := ∃ s, net.state? x = some s ∧ s.isStop = true

variable {net : Network} {frames : CallStack}

theorem HasEdge.not_stopsAt {x : StateRef} {e : Edge} (h : net.HasEdge x e) : ¬ net.StopsAt x := by
  obtain ⟨s, hs, hgo, -⟩ := h
  rintro ⟨t, ht, hstop⟩
  rw [hs] at ht
  cases ht
  rw [hgo] at hstop
  exact Bool.false_ne_true hstop

/-- A step that reads no token. A state that ends its rule has no step but back to a caller. -/
inductive Step (net : Network) (frames : CallStack) : Place → Place → Prop
  /-- Along an edge that takes nothing. -/
  | free {x : StateRef} {σ : List StateRef} {b : FrameRef} {e : Edge} :
      net.HasEdge x e → e.move.isFree = true → Step net frames ⟨x, σ, b⟩ ⟨e.target, σ, b⟩
  /-- Into a rule, to return to the state in which the caller goes on. -/
  | call {x : StateRef} {σ : List StateRef} {b : FrameRef} {e : Edge} {rule : Nat}
      {follow : StateRef} : net.HasEdge x e → e.move = .call rule follow →
      Step net frames ⟨x, σ, b⟩ ⟨e.target, follow :: σ, b⟩
  /-- Out of a rule that was entered, to the return on top. -/
  | ret {x follow : StateRef} {σ : List StateRef} {b : FrameRef} :
      net.StopsAt x → Step net frames ⟨x, follow :: σ, b⟩ ⟨follow, σ, b⟩
  /-- Out of the rule of a frame, to where the caller of that frame goes on. -/
  | leave {x follow : StateRef} {b : FrameRef} {f : Frame} :
      net.StopsAt x → frames.get? b = some f → f.isOutermost = false →
      net.returnState? f.invoking = some follow → Step net frames ⟨x, [], b⟩ ⟨follow, [], f.parent⟩

/-- Steps made one after another. -/
abbrev Walk (net : Network) (frames : CallStack) : Place → Place → Prop :=
  ReflTransGen (net.Step frames)

/-- The codes that a place has to offer: those on the edges of its state, and at the end of a rule
that has no return, what its frame says. -/
inductive Offers (net : Network) (frames : CallStack) : Place → TokenCode → Prop
  /-- A token can be read. -/
  | label {x : StateRef} {σ : List StateRef} {b : FrameRef} {e : Edge} {codes : TokenSet}
      {c : TokenCode} : net.HasEdge x e → e.move.label? net.greatest = some codes → c ∈ codes →
      Offers net frames ⟨x, σ, b⟩ c
  /-- The rule has no frame. -/
  | noFrame {x : StateRef} {b : FrameRef} : net.StopsAt x → frames.get? b = none →
      Offers net frames ⟨x, [], b⟩ .ruleEnd
  /-- No state called the rule. -/
  | outermost {x : StateRef} {b : FrameRef} {f : Frame} : net.StopsAt x → frames.get? b = some f →
      f.isOutermost = true → Offers net frames ⟨x, [], b⟩ .endOfInput
  /-- The state that called the rule does not begin with a call. -/
  | noReturn {x : StateRef} {b : FrameRef} {f : Frame} : net.StopsAt x → frames.get? b = some f →
      f.isOutermost = false → net.returnState? f.invoking = none →
      Offers net frames ⟨x, [], b⟩ .ruleEnd

/-- A code is on offer at a place or after some steps from it. -/
def Admits (net : Network) (frames : CallStack) (p : Place) (c : TokenCode) : Prop :=
  ∃ q, net.Walk frames p q ∧ net.Offers frames q c

/-- A token with code `k` is read on an edge of state `x`. -/
def Reads (net : Network) (x : StateRef) (k : TokenCode) : Prop :=
  ∃ e codes, net.HasEdge x e ∧ e.move.label? net.greatest = some codes ∧ k ∈ codes

theorem Reads.offers {x : StateRef} {σ : List StateRef} {b : FrameRef} {k : TokenCode}
    (h : net.Reads x k) : net.Offers frames ⟨x, σ, b⟩ k := by
  obtain ⟨e, codes, he, hcodes, hk⟩ := h
  exact .label he hcodes hk

/-- Without frames a place offers the codes read there, and at the end of the rule the marker. -/
theorem offers_empty_iff {p : Place} {k : TokenCode} :
    net.Offers ∅ p k ↔
      net.Reads p.state k ∨ k = .ruleEnd ∧ p.returns = [] ∧ net.StopsAt p.state := by
  constructor
  · intro h
    cases h with
    | label he hcodes hk => exact Or.inl ⟨_, _, he, hcodes, hk⟩
    | noFrame hx _ => exact Or.inr ⟨rfl, rfl, hx⟩
    | outermost _ hf _ | noReturn _ hf _ _ =>
      rw [CallStack.get?_empty] at hf
      cases hf
  · rintro (hreads | ⟨rfl, hreturns, hx⟩)
    · exact hreads.offers
    · obtain ⟨x, σ, b⟩ := p
      cases hreturns
      exact .noFrame hx (CallStack.get?_empty b)

/-! ## Walks within a rule -/

/-- From state `x` a walk that does not leave the rule of `x` comes to state `y` with the returns
`above` pending. -/
def Within (net : Network) (x y : StateRef) (above : List StateRef) : Prop :=
  net.Walk ∅ ⟨x, [], none⟩ ⟨y, above, none⟩

/-- The end of a rule can be reached from its start without a token. -/
def Nullable (net : Network) (rule : Nat) : Prop :=
  ∃ x y, net.start? rule = some x ∧ net.Within x y [] ∧ net.StopsAt y

/-- From its start, and while it is open, a rule can be called again without a token. -/
def LeftRecursive (net : Network) (rule : Nat) : Prop :=
  ∃ x y above e follow, net.start? rule = some x ∧ net.Within x y above ∧ net.HasEdge y e ∧
    e.move = .call rule follow

theorem within_refl (x : StateRef) : net.Within x x [] := ReflTransGen.refl

theorem Within.free {x y : StateRef} {above : List StateRef} {e : Edge} (h : net.Within x y above)
    (he : net.HasEdge y e) (hfree : e.move.isFree = true) : net.Within x e.target above :=
  ReflTransGen.tail h (.free he hfree)

theorem Within.call {x y follow : StateRef} {above : List StateRef} {e : Edge} {rule : Nat}
    (h : net.Within x y above) (he : net.HasEdge y e) (hcall : e.move = .call rule follow) :
    net.Within x e.target (follow :: above) :=
  ReflTransGen.tail h (.call he hcall)

theorem Within.ret {x y follow : StateRef} {above : List StateRef}
    (h : net.Within x y (follow :: above)) (hy : net.StopsAt y) : net.Within x follow above :=
  ReflTransGen.tail h (.ret hy)

/-- Without frames a walk keeps to the base that it began with. -/
theorem base_eq_of_walk {p q : Place} (h : net.Walk ∅ p q) : q.base = p.base := by
  induction h with
  | refl => rfl
  | tail _ hstep ih =>
    cases hstep with
    | free _ _ => exact ih
    | call _ _ => exact ih
    | ret _ => exact ih
    | leave _ hf _ _ =>
      rw [CallStack.get?_empty] at hf
      cases hf

/-- A walk without frames stays within the rule of the state from which it began. -/
theorem within_of_walk {x : StateRef} {q : Place} (h : net.Walk ∅ ⟨x, [], none⟩ q) :
    net.Within x q.state q.returns := by
  obtain ⟨y, above, b⟩ := q
  cases base_eq_of_walk h
  exact h

/-- What holds at the start of a walk within a rule and is kept by its steps holds at its end. Such a
walk never comes to a frame. -/
theorem Within.invariant {x y : StateRef} {above : List StateRef}
    {P : StateRef → List StateRef → Prop} (h : net.Within x y above) (hstart : P x [])
    (hfree : ∀ y above e, P y above → net.HasEdge y e → e.move.isFree = true → P e.target above)
    (hcall : ∀ y above e rule follow, P y above → net.HasEdge y e →
      e.move = .call rule follow → P e.target (follow :: above))
    (hret : ∀ y follow above, P y (follow :: above) → net.StopsAt y → P follow above) :
    P y above := by
  -- without frames a walk keeps to the base it began with
  have key : ∀ p : Place, net.Walk ∅ ⟨x, [], none⟩ p → p.base = none ∧ P p.state p.returns := by
    intro p hwalk
    induction hwalk with
    | refl => exact ⟨rfl, hstart⟩
    | tail _ hstep ih =>
      obtain ⟨hbase, hp⟩ := ih
      cases hstep with
      | free he hf => exact ⟨hbase, hfree _ _ _ hp he hf⟩
      | call he hc => exact ⟨hbase, hcall _ _ _ _ _ hp he hc⟩
      | ret hx => exact ⟨hbase, hret _ _ _ hp hx⟩
      | leave _ hf _ _ =>
        cases hbase
        exact absurd hf (by simp [CallStack.get?])
  exact (key _ h).2

/-- Whether some states do not end their rules and lead, on edges that read no token, to each other
only. -/
def traps (net : Network) (S : List StateRef) : Bool :=
  S.all fun x => (net.state? x).all fun s =>
    !s.isStop && s.edges.all fun e => !e.move.isSilent || S.contains e.target

theorem traps_iff {S : List StateRef} : net.traps S = true ↔
    ∀ x ∈ S, ∀ s, net.state? x = some s →
      s.isStop = false ∧ ∀ e ∈ s.edges, e.move.isSilent = false ∨ e.target ∈ S := by
  simp [traps, Option.all_eq_true]

/-- A rule is not nullable if it begins in a trap. -/
theorem not_nullable_of_traps {rule : Nat} {S : List StateRef} (hS : net.traps S = true)
    (hstart : ∀ x, net.start? rule = some x → x ∈ S) : ¬ net.Nullable rule := by
  have hedge : ∀ x e, x ∈ S → net.HasEdge x e → e.move.isSilent = true → e.target ∈ S := by
    rintro x e hx ⟨s, hs, -, he⟩ hsilent
    rcases (traps_iff.1 hS x hx s hs).2 e he with hreads | htarget
    · exact absurd hsilent (Bool.eq_false_iff.1 hreads)
    · exact htarget
  have hstop : ∀ x, x ∈ S → ¬ net.StopsAt x := by
    rintro x hx ⟨s, hs, hstop⟩
    rw [(traps_iff.1 hS x hx s hs).1] at hstop
    exact Bool.false_ne_true hstop
  -- a walk from the start stays in the trap: it takes no return, for no rule ends there
  rintro ⟨x, y, hx, hwithin, hy⟩
  refine hstop y (hwithin.invariant (P := fun y _ => y ∈ S) (hstart x hx) ?_ ?_ ?_) hy
  · exact fun y _ e hmem he hfree => hedge y e hmem he (Move.isSilent_of_isFree hfree)
  · exact fun y _ e rule follow hmem he hcall => hedge y e hmem he (by rw [hcall]; rfl)
  · exact fun y _ _ hmem hy => absurd hy (hstop y hmem)

/-- No rule is nullable if all of them begin in a trap. -/
theorem not_nullable_of_starts {S : List StateRef} (hS : net.traps S = true)
    (hstarts : net.starts.toList ⊆ S) (rule : Nat) : ¬ net.Nullable rule := by
  apply not_nullable_of_traps hS
  intro x hx
  exact hstarts (Array.mem_toList_iff.2 (Array.mem_of_getElem? hx))

/-! ## Walks told rule by rule -/

/-- From state `x` the same rule goes on to state `y` without a token; the rules called on the way are
gone through from start to stop. -/
inductive Across (net : Network) : StateRef → StateRef → Prop
  | refl (x : StateRef) : Across net x x
  | free {x y : StateRef} {e : Edge} : net.HasEdge x e → e.move.isFree = true →
      Across net e.target y → Across net x y
  | call {x u follow y : StateRef} {e : Edge} {rule : Nat} : net.HasEdge x e →
      e.move = .call rule follow → Across net e.target u → net.StopsAt u → Across net follow y →
      Across net x y

/-- From state `x` a token with code `c` can be read before the rule of `x` ends. -/
inductive First (net : Network) (c : TokenCode) : StateRef → Prop
  | label {x : StateRef} {e : Edge} {codes : TokenSet} : net.HasEdge x e →
      e.move.label? net.greatest = some codes → c ∈ codes → First net c x
  | free {x : StateRef} {e : Edge} : net.HasEdge x e → e.move.isFree = true →
      First net c e.target → First net c x
  | enter {x follow : StateRef} {e : Edge} {rule : Nat} : net.HasEdge x e →
      e.move = .call rule follow → First net c e.target → First net c x
  | past {x u follow : StateRef} {e : Edge} {rule : Nat} : net.HasEdge x e →
      e.move = .call rule follow → Across net e.target u → net.StopsAt u → First net c follow →
      First net c x

/-- From a place a code is on offer in its rule, or in one of those that it returns to, or where its
frames end. -/
inductive Found (net : Network) (frames : CallStack) (c : TokenCode) : Place → Prop
  | first {x : StateRef} {σ : List StateRef} {b : FrameRef} : net.First c x →
      Found net frames c ⟨x, σ, b⟩
  | ret {x u follow : StateRef} {σ : List StateRef} {b : FrameRef} : net.Across x u →
      net.StopsAt u → Found net frames c ⟨follow, σ, b⟩ → Found net frames c ⟨x, follow :: σ, b⟩
  | ended {x u : StateRef} {b : FrameRef} : net.Across x u → net.StopsAt u →
      net.Offers frames ⟨u, [], b⟩ c → Found net frames c ⟨x, [], b⟩
  | leave {x u follow : StateRef} {b : FrameRef} {f : Frame} : net.Across x u → net.StopsAt u →
      frames.get? b = some f → f.isOutermost = false →
      net.returnState? f.invoking = some follow → Found net frames c ⟨follow, [], f.parent⟩ →
      Found net frames c ⟨x, [], b⟩

theorem Across.trans {x y z : StateRef} (h : net.Across x y) (h' : net.Across y z) :
    net.Across x z := by
  induction h with
  | refl => exact h'
  | free he hfree _ ih => exact .free he hfree (ih h')
  | call he hcall hin hu _ _ ih => exact .call he hcall hin hu (ih h')

theorem First.of_across {c : TokenCode} {x y : StateRef} (h : net.Across x y)
    (hy : net.First c y) : net.First c x := by
  induction h with
  | refl => exact hy
  | free he hfree _ ih => exact .free he hfree (ih hy)
  | call he hcall hin hu _ _ ih => exact .past he hcall hin hu (ih hy)

theorem Found.of_across {c : TokenCode} {x y : StateRef} {σ : List StateRef} {b : FrameRef}
    (h : net.Across x y) (hy : net.Found frames c ⟨y, σ, b⟩) : net.Found frames c ⟨x, σ, b⟩ := by
  cases hy with
  | first hfirst => exact .first (hfirst.of_across h)
  | ret hacross hu hrest => exact .ret (h.trans hacross) hu hrest
  | ended hacross hu hoffer => exact .ended (h.trans hacross) hu hoffer
  | leave hacross hu hf hin hreturn hrest =>
    exact .leave (h.trans hacross) hu hf hin hreturn hrest

theorem Offers.found {p : Place} {c : TokenCode} (h : net.Offers frames p c) :
    net.Found frames c p := by
  cases h with
  | label he hcodes hc => exact .first (.label he hcodes hc)
  | noFrame hx hf => exact .ended (.refl _) hx (.noFrame hx hf)
  | outermost hx hf hout => exact .ended (.refl _) hx (.outermost hx hf hout)
  | noReturn hx hf hin hreturn => exact .ended (.refl _) hx (.noReturn hx hf hin hreturn)

/-- What is found after a step is found before it. Behind a call it is found in the called rule, or
after that rule has been gone through. -/
theorem Step.found {p q : Place} {c : TokenCode} (h : net.Step frames p q)
    (hq : net.Found frames c q) : net.Found frames c p := by
  cases h with
  | free he hfree => exact hq.of_across (.free he hfree (.refl _))
  | call he hcall =>
    -- in the rule called, or behind it
    cases hq with
    | first hfirst => exact .first (.enter he hcall hfirst)
    | ret hacross hu hrest => exact hrest.of_across (.call he hcall hacross hu (.refl _))
  | ret hx => exact .ret (.refl _) hx hq
  | leave hx hf hin hreturn => exact .leave (.refl _) hx hf hin hreturn hq

/-- Every code that a walk comes to is found rule by rule. -/
theorem found_of_walk {p q : Place} {c : TokenCode} (h : net.Walk frames p q)
    (hq : net.Offers frames q c) : net.Found frames c p := by
  induction h using ReflTransGen.head_induction_on with
  | refl => exact hq.found
  | head hstep _ ih => exact hstep.found ih

/-- What lies across a rule is reached by a walk that leaves the returns below as they are. -/
theorem Across.walk {x y : StateRef} (h : net.Across x y) (σ : List StateRef) (b : FrameRef) :
    net.Walk frames ⟨x, σ, b⟩ ⟨y, σ, b⟩ := by
  induction h generalizing σ with
  | refl => exact ReflTransGen.refl
  | free he hfree _ ih => exact ReflTransGen.head (.free he hfree) (ih σ)
  | @call x u follow y e rule he hcall _ hu _ ihin ihrest =>
    have hback : net.Walk frames ⟨u, follow :: σ, b⟩ ⟨y, σ, b⟩ :=
      ReflTransGen.head (.ret hu) (ihrest σ)
    exact ReflTransGen.head (.call he hcall) ((ihin (follow :: σ)).trans hback)

theorem Across.within {x y : StateRef} (h : net.Across x y) : net.Within x y [] := h.walk [] none

end Network

end SyntaxRecovery
