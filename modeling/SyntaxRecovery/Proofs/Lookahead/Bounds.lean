import Mathlib
import SyntaxRecovery.Proofs.Lookahead.Turns

/-!
# How many configurations a search can come to

On every path of a search there are no more returns than barred rules, for a call adds one of each and
an end of a rule takes away a return and at most one bar. The barred rules are all different, and a
network that is built calls only rules that it has; so there are never more returns than rules
(`Network.Contained`). With states and frames from the network and the stack this leaves a number of
places that depends on these two only (`Network.placeBound`). A search that may look at more is never
cut off, and all such searches find the same (`Network.survey_of_placeBound_lt`).
-/

set_option autoImplicit false

namespace SyntaxRecovery

open Relation

/-! ## Lists of bounded length -/

/-- The lists of no more than `n` elements of a list. -/
def listsUpTo {α : Type} (l : List α) : Nat → List (List α)
  | 0 => [[]]
  | n + 1 => [] :: l.flatMap fun a => (listsUpTo l n).map (a :: ·)

theorem mem_listsUpTo {α : Type} {l σ : List α} {n : Nat} (hlength : σ.length ≤ n)
    (hmem : ∀ a ∈ σ, a ∈ l) : σ ∈ listsUpTo l n := by
  induction n generalizing σ with
  | zero =>
    rw [Nat.le_zero, List.length_eq_zero_iff] at hlength
    rw [hlength]
    apply List.mem_singleton_self
  | succ n ih =>
    cases σ with
    | nil => exact List.mem_cons_self
    | cons a σ =>
      rw [listsUpTo]
      apply List.mem_cons_of_mem
      rw [List.mem_flatMap]
      refine ⟨a, hmem a List.mem_cons_self, ?_⟩
      apply List.mem_map_of_mem
      apply ih
      · exact Nat.le_of_succ_le_succ hlength
      · intro b hb
        exact hmem b (List.mem_cons_of_mem a hb)

theorem length_listsUpTo {α : Type} (l : List α) (n : Nat) :
    (listsUpTo l n).length = ∑ i ∈ Finset.range (n + 1), l.length ^ i := by
  induction n with
  | zero => rfl
  | succ n ih =>
    rw [Finset.sum_range_succ', listsUpTo, List.length_cons, List.length_flatMap]
    simp only [List.length_map, ih, List.map_const', List.sum_replicate, smul_eq_mul, pow_succ',
      Finset.mul_sum, pow_zero]

/-- The key of the configurations at a place. -/
def Place.key (p : Place) : List Nat :=
  referenceNumber p.state :: referenceNumber p.base :: p.returns.map referenceNumber

namespace Network

variable {net : Network} {frames : CallStack} {limit limit' : Nat} {c d : Configuration}
  {state : StateRef} {frame : FrameRef} {s : Search}

/-! ## What there is to make places of -/

/-- The states to which edges lead. -/
def targets (net : Network) : List StateRef :=
  net.states.toList.flatMap fun s => s.edges.map Edge.target

/-- The states in which callers go on. -/
def follows (net : Network) : List StateRef :=
  net.states.toList.flatMap fun s => s.edges.filterMap fun e =>
    match e.move with
    | .call _ follow => some follow
    | _ => none

theorem HasEdge.target_mem {x : StateRef} {e : Edge} (h : net.HasEdge x e) :
    e.target ∈ net.targets := by
  obtain ⟨s, hs, -, he⟩ := h
  exact List.mem_flatMap.2 ⟨s, mem_states_of_state? hs, List.mem_map_of_mem he⟩

theorem follow_mem_of_state? {x follow : StateRef} {s : State} {e : Edge} {rule : Nat}
    (hs : net.state? x = some s) (he : e ∈ s.edges) (hcall : e.move = .call rule follow) :
    follow ∈ net.follows := by
  refine List.mem_flatMap.2 ⟨s, mem_states_of_state? hs, List.mem_filterMap.2 ⟨e, he, ?_⟩⟩
  rw [hcall]

theorem HasEdge.follow_mem {x follow : StateRef} {e : Edge} {rule : Nat} (h : net.HasEdge x e)
    (hcall : e.move = .call rule follow) : follow ∈ net.follows := by
  obtain ⟨s, hs, -, he⟩ := h
  exact follow_mem_of_state? hs he hcall

/-- The state to which a caller returns is one in which callers go on. -/
theorem follow_mem_of_returnState? {invoking follow : StateRef}
    (h : net.returnState? invoking = some follow) : follow ∈ net.follows := by
  rw [returnState?] at h
  split at h
  · next rule follow' target hedge =>
    cases h
    obtain ⟨s, hs, hhead⟩ := Option.bind_eq_some_iff.1 hedge
    exact follow_mem_of_state? hs (List.mem_of_mem_head? hhead) rfl
  · cases h

theorem parent_mem_of_get? {r : FrameRef} {f : Frame} (h : frames.get? r = some f) :
    f.parent ∈ frames.frames.toList.map Frame.parent := by
  cases r with
  | none => cases h
  | some p => exact List.mem_map_of_mem (Array.mem_toList_iff.2 (Array.mem_of_getElem? h))

/-- The places with a state, a frame and as many returns as a search from a state in a frame can come
to. -/
def placesFrom (net : Network) (frames : CallStack) (state : StateRef) (frame : FrameRef) :
    List Place :=
  ((state :: (net.targets ++ net.follows)) ×ˢ (frame :: frames.frames.toList.map Frame.parent) ×ˢ
    listsUpTo net.follows net.ruleCount).map fun (x, b, σ) => ⟨x, σ, b⟩

/-- Number of places to which a search can come at most, wherever it begins. -/
def placeBound (net : Network) (frames : CallStack) : Nat :=
  (net.targets.length + net.follows.length + 1) * ((frames.depth + 1) *
    ∑ i ∈ Finset.range (net.ruleCount + 1), net.follows.length ^ i)

theorem length_placesFrom (net : Network) (frames : CallStack) (state : StateRef)
    (frame : FrameRef) : (net.placesFrom frames state frame).length = net.placeBound frames := by
  rw [placesFrom, List.length_map, List.length_product, List.length_product, length_listsUpTo]
  simp only [List.length_cons, List.length_append, List.length_map, Array.length_toList, placeBound,
    CallStack.depth]

/-! ## What every path keeps -/

/-- A configuration is made of what the network and the stack have, has no more returns than barred
rules, and bars rules that are there, none of them twice. -/
structure Contained (net : Network) (frames : CallStack) (state : StateRef) (frame : FrameRef)
    (c : Configuration) : Prop where
  state_mem : c.state ∈ state :: (net.targets ++ net.follows)
  base_mem : c.base ∈ frame :: frames.frames.toList.map Frame.parent
  returns_mem : ∀ follow ∈ c.returns, follow ∈ net.follows
  returns_length : c.returns.length ≤ c.barred.length
  barred_nodup : c.barred.Nodup
  barred_lt : ∀ rule ∈ c.barred, rule < net.ruleCount

theorem contained_initial (net : Network) (frames : CallStack) (state : StateRef)
    (frame : FrameRef) : net.Contained frames state frame (initial state frame) := by
  refine ⟨List.mem_cons_self, List.mem_cons_self, ?_, Nat.le_refl 0, List.nodup_nil, ?_⟩
  · intro follow hfollow
    exact absurd hfollow List.not_mem_nil
  · intro rule hrule
    exact absurd hrule List.not_mem_nil

/-- A step of a search takes away no bar but one for a return, and adds none without a return. -/
theorem Contained.next (hdeclared : net.Declared) (hc : net.Contained frames state frame c)
    (h : net.Next frames c d) : net.Contained frames state frame d := by
  obtain ⟨hstate, hbase, hreturns, hlength, hnodup, hlt⟩ := hc
  have htarget : ∀ x e, net.HasEdge x e → e.target ∈ state :: (net.targets ++ net.follows) := by
    intro x e he
    exact List.mem_cons_of_mem _ (List.mem_append_left _ he.target_mem)
  have hfollow : ∀ x ∈ net.follows, x ∈ state :: (net.targets ++ net.follows) := by
    intro x hx
    exact List.mem_cons_of_mem _ (List.mem_append_right _ hx)
  have herase : ∀ rule : Nat, c.barred.length ≤ (c.barred.erase rule).length + 1 := by
    intro rule
    rw [List.length_erase]
    split
    · omega
    · omega
  cases h with
  | free he hfree => exact ⟨htarget _ _ he, hbase, hreturns, hlength, hnodup, hlt⟩
  | @call e rule follow he hcall hbar =>
    refine ⟨htarget _ _ he, hbase, ?_, Nat.succ_le_succ hlength, List.nodup_cons.2 ⟨hbar, hnodup⟩, ?_⟩
    · intro x hx
      rcases List.mem_cons.1 hx with rfl | hx
      · exact he.follow_mem hcall
      · exact hreturns x hx
    · intro rule' hrule'
      rcases List.mem_cons.1 hrule' with rfl | hrule'
      · obtain ⟨s, hs, -, hmem⟩ := he
        exact hdeclared c.state s hs e hmem rule' follow hcall
      · exact hlt rule' hrule'
  | @ret s follow σ hs hstop hpending =>
    rw [hpending] at hreturns hlength
    refine ⟨hfollow follow (hreturns follow List.mem_cons_self), hbase, ?_, ?_, hnodup.erase s.rule, ?_⟩
    · intro x hx
      exact hreturns x (List.mem_cons_of_mem follow hx)
    · -- one return less, and at most one bar
      have hle := herase s.rule
      rw [List.length_cons] at hlength
      dsimp only
      omega
    · intro rule hrule
      exact hlt rule (List.mem_of_mem_erase hrule)
  | @leave s f follow hs hstop hpending hf hin hreturn =>
    refine ⟨hfollow follow (follow_mem_of_returnState? hreturn), ?_, hreturns, ?_,
      hnodup.erase s.rule, ?_⟩
    · exact List.mem_cons_of_mem _ (parent_mem_of_get? hf)
    · -- there is no return that would need a bar
      dsimp only
      rw [hpending]
      exact Nat.zero_le _
    · intro rule hrule
      exact hlt rule (List.mem_of_mem_erase hrule)

theorem contained_of_reaches (hdeclared : net.Declared)
    (h : net.Reaches frames (initial state frame) c) : net.Contained frames state frame c := by
  induction h with
  | refl => exact contained_initial net frames state frame
  | tail _ hnext ih => exact ih.next hdeclared hnext

/-- Different rules that are there are no more than there are. -/
theorem Contained.barred_length (h : net.Contained frames state frame c) :
    c.barred.length ≤ net.ruleCount := by
  have hsubset : c.barred ⊆ List.range net.ruleCount := by
    intro rule hrule
    exact List.mem_range.2 (h.barred_lt rule hrule)
  have hle := (List.subperm_of_subset h.barred_nodup hsubset).length_le
  rwa [List.length_range] at hle

theorem Contained.place_mem (h : net.Contained frames state frame c) :
    c.place ∈ net.placesFrom frames state frame := by
  have hlength := Nat.le_trans h.returns_length h.barred_length
  refine List.mem_map.2 ⟨(c.state, c.base, c.returns), ?_, rfl⟩
  exact List.mem_product.2
    ⟨h.state_mem, List.mem_product.2 ⟨h.base_mem, mem_listsUpTo hlength h.returns_mem⟩⟩

/-! ## Room for a whole search -/

theorem nodup_toList_seen (v : Survey) : v.seen.toList.Nodup := by
  have hdistinct := Std.TreeSet.distinct_toList (t := v.seen)
  refine hdistinct.imp ?_
  intro key key' hne heq
  exact hne (Std.compare_eq_iff_eq.2 heq)

/-- A search never sees more places than it can come to. -/
theorem size_seen_turns_le (hdeclared : net.Declared) (frames : CallStack) (limit n : Nat)
    (state : StateRef) (frame : FrameRef) :
    (net.turns frames limit n (searchFrom state frame)).survey.seen.size ≤
      net.placeBound frames := by
  have hgrounded : (net.turns frames limit n (searchFrom state frame)).Grounded net frames
      (initial state frame) := grounded_turns n state frame
  generalize net.turns frames limit n (searchFrom state frame) = s at hgrounded ⊢
  have hsubset : s.survey.seen.toList ⊆ (net.placesFrom frames state frame).map Place.key := by
    intro key hkey
    rw [Std.TreeSet.mem_toList, ← Std.TreeSet.contains_iff_mem] at hkey
    obtain ⟨c, hreach, rfl⟩ := hgrounded.seen key hkey
    exact List.mem_map_of_mem (contained_of_reaches hdeclared hreach).place_mem
  have hle := (List.subperm_of_subset (nodup_toList_seen s.survey) hsubset).length_le
  rwa [Std.TreeSet.length_toList, List.length_map, length_placesFrom] at hle

/-- With room left, a turn does not depend on the limit and leaves nothing out. -/
theorem turn_of_size_lt (net : Network) (frames : CallStack) (h : s.survey.seen.size < limit)
    (h' : s.survey.seen.size < limit') :
    net.turn frames limit' s = net.turn frames limit s ∧
      (net.turn frames limit s).survey.refused = s.survey.refused := by
  obtain ⟨v, agenda⟩ := s
  cases agenda with
  | nil => exact ⟨rfl, rfl⟩
  | cons c agenda =>
    simp only [turn, if_neg (Nat.not_le.2 h), if_neg (Nat.not_le.2 h'), true_and]
    split
    · rfl
    · rfl

theorem turns_of_placeBound_lt (hdeclared : net.Declared) (hlimit : net.placeBound frames < limit)
    (hlimit' : net.placeBound frames < limit') (n : Nat) (state : StateRef) (frame : FrameRef) :
    net.turns frames limit' n (searchFrom state frame) =
        net.turns frames limit n (searchFrom state frame) ∧
      (net.turns frames limit n (searchFrom state frame)).survey.refused = none := by
  induction n with
  | zero => exact ⟨rfl, rfl⟩
  | succ n ih =>
    obtain ⟨heq, hrefused⟩ := ih
    -- what has been seen so far leaves room under both limits, so the next turn is the same
    have hsize := size_seen_turns_le hdeclared frames limit n state frame
    obtain ⟨hsame, hkeep⟩ := turn_of_size_lt net frames (Nat.lt_of_le_of_lt hsize hlimit)
      (Nat.lt_of_le_of_lt hsize hlimit')
    rw [turns_succ, turns_succ, heq]
    exact ⟨hsame, hkeep.trans hrefused⟩

/-- Under a limit above the bound nothing is left out. -/
theorem refused_survey_of_placeBound_lt (hdeclared : net.Declared)
    (hlimit : net.placeBound frames < limit) (state : StateRef) (frame : FrameRef) :
    (net.survey limit frames state frame).refused = none := by
  obtain ⟨n, hn⟩ := exists_turns_eq_survey net frames limit state frame
  obtain ⟨-, hrefused⟩ := turns_of_placeBound_lt hdeclared hlimit hlimit n state frame
  rwa [hn] at hrefused

/-- A lookahead in a network that is small enough leaves nothing out. -/
theorem notes_lookahead_of_placeBound_lt (hdeclared : net.Declared)
    (hlimit : net.placeBound frames < surveyLimit) (state : StateRef) (frame : FrameRef) :
    (net.lookahead frames state frame).notes = [] := by
  have hrefused := refused_survey_of_placeBound_lt hdeclared hlimit state frame
  unfold lookahead
  simp only [hrefused, Noted.notes_pure]

/-- Wherever a lookahead in the stray network begins, it comes to no more than 18 places. -/
example (state : StateRef) (frame : FrameRef) :
    (((empty 5).buildAll strayInstructions).value.2.lookahead ∅ state frame).notes = [] := by
  apply notes_lookahead_of_placeBound_lt (declared_buildAll 5 strayInstructions)
  decide

/-- In a network that is built, on whatever stack and from wherever a search begins: after any number
of turns each configuration that waits has no more returns than barred rules, which are different
rules of the network. All configurations that the search can come to lie at places whose number is
bounded by the network and the stack. Under every limit above this bound the search ends after the
same number of turns with the same result, and nothing is left out. -/
theorem survey_of_placeBound_lt (greatest : TokenCode) (instructions : List Instruction)
    (frames : CallStack) (state : StateRef) (frame : FrameRef) :
    let net := ((empty greatest).buildAll instructions).value.2
    (∀ limit n, ∀ c ∈ (net.turns frames limit n (searchFrom state frame)).agenda,
      c.returns.length ≤ c.barred.length ∧ c.barred.Nodup ∧ c.barred.length ≤ net.ruleCount) ∧
    (∃ places : List Place, places.length ≤ net.placeBound frames ∧
      ∀ c, net.Reaches frames (initial state frame) c → c.place ∈ places) ∧
    ∃ n v, ∀ limit, net.placeBound frames < limit →
      net.turns frames limit n (searchFrom state frame) = { survey := v, agenda := [] } ∧
      net.survey limit frames state frame = v ∧ v.refused = none := by
  intro net
  have hdeclared : net.Declared := declared_buildAll greatest instructions
  refine ⟨?_, ?_, ?_⟩
  · intro limit n c hc
    have hreach := (grounded_turns n state frame).waiting c hc
    have hcontained := contained_of_reaches hdeclared hreach
    exact ⟨hcontained.returns_length, hcontained.barred_nodup, hcontained.barred_length⟩
  · refine ⟨net.placesFrom frames state frame, Nat.le_of_eq (length_placesFrom _ _ _ _), ?_⟩
    intro c hreach
    exact (contained_of_reaches hdeclared hreach).place_mem
  · -- the search under the least such limit shows how all of them go
    have hleast : net.placeBound frames < net.placeBound frames + 1 := Nat.lt_succ_self _
    obtain ⟨n, hn⟩ := exists_turns_eq_survey net frames (net.placeBound frames + 1) state frame
    refine ⟨n, net.survey (net.placeBound frames + 1) frames state frame, ?_⟩
    intro limit hlimit
    obtain ⟨hsame, -⟩ := turns_of_placeBound_lt hdeclared hleast hlimit n state frame
    have hend := hsame.trans hn
    exact ⟨hend, survey_of_turns_eq hend, refused_survey_of_placeBound_lt hdeclared hleast state frame⟩

end Network

end SyntaxRecovery
