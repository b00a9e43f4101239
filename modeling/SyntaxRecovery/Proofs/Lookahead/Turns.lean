import Mathlib
import SyntaxRecovery.Proofs.Lookahead.OpenRules

/-!
# The search, turn by turn

A search takes up one configuration after another (`Network.turn`): the first on its agenda is left
out as one too many, passed over because it has been seen, or looked at, and then the configurations
to which the search goes on come before all that wait. Each configuration that waits has been come to,
and so has one for each key seen and for each code found (`Search.Grounded`). The returns of a
configuration are therefore those of a walk, whatever has been left out or passed over before, and
every code that a search finds is on offer at the end of a walk, in any network and under any limit
(`Network.survey_justified`).
-/

set_option autoImplicit false

namespace SyntaxRecovery

open Relation

/-- A search under way. -/
structure Search where
  /-- What it has found. -/
  survey : Survey
  /-- The configurations to be taken up, first things first. -/
  agenda : List Configuration

namespace Network

variable {net : Network} {frames : CallStack} {limit limit' : Nat} {c₀ : Configuration} {s : Search}
  {state : StateRef} {frame : FrameRef} {k : TokenCode}

/-- A search before its first turn. -/
def searchFrom (state : StateRef) (frame : FrameRef) : Search :=
  { survey := {}, agenda := [initial state frame] }

/-- One turn of a search: the first configuration on the agenda is taken up. -/
def turn (net : Network) (frames : CallStack) (limit : Nat) (s : Search) : Search :=
  match s.agenda with
  | [] => s
  | c :: agenda =>
    if limit ≤ s.survey.seen.size then { survey := s.survey.refuse c, agenda }
    else if s.survey.seen.contains c.key then { survey := s.survey, agenda }
    else
      let o := net.outlook frames c
      { survey := s.survey.record c o, agenda := o.next ++ agenda }

/-- A search after some more turns. -/
def turns (net : Network) (frames : CallStack) (limit n : Nat) (s : Search) : Search :=
  (net.turn frames limit)^[n] s

theorem turns_succ (n : Nat) :
    net.turns frames limit (n + 1) s = net.turn frames limit (net.turns frames limit n s) :=
  Function.iterate_succ_apply' _ n s

/-- A turn does not change where the search ends. -/
theorem explore_turn (s : Search) :
    net.explore frames limit (net.turn frames limit s).survey (net.turn frames limit s).agenda =
      net.explore frames limit s.survey s.agenda := by
  obtain ⟨v, agenda⟩ := s
  cases agenda with
  | nil => rfl
  | cons c agenda =>
    rw [explore, turn]
    dsimp only
    split
    · rfl
    · split <;> rfl

theorem explore_turns (n : Nat) (s : Search) :
    net.explore frames limit (net.turns frames limit n s).survey
        (net.turns frames limit n s).agenda =
      net.explore frames limit s.survey s.agenda := by
  induction n with
  | zero => rfl
  | succ n ih =>
    rw [turns_succ, explore_turn]
    exact ih

/-- What a search comes to after some turns more, it comes to after one turn and some more. -/
theorem exists_turns_of_turn {e : Search}
    (h : ∃ n, net.turns frames limit n (net.turn frames limit s) = e) :
    ∃ n, net.turns frames limit n s = e := by
  obtain ⟨n, hn⟩ := h
  refine ⟨n + 1, ?_⟩
  rw [turns, Function.iterate_succ_apply]
  exact hn

/-- After some number of turns nothing waits, and what has been found is the result of the search. -/
theorem exists_turns_eq (v : Survey) (agenda : List Configuration) :
    ∃ n, net.turns frames limit n { survey := v, agenda } =
      { survey := net.explore frames limit v agenda, agenda := [] } := by
  -- by the recursion of the search, which takes up the agenda in the same order
  fun_induction explore net frames limit v agenda with
  | case1 v => exact ⟨0, rfl⟩
  | case2 v c agenda hfull ih =>
    apply exists_turns_of_turn
    rw [turn]
    simp only [if_pos hfull]
    exact ih
  | case3 v c agenda hroom hseen ih =>
    apply exists_turns_of_turn
    rw [turn]
    simp only [if_neg hroom, if_pos hseen]
    exact ih
  | case4 v c agenda hroom hseen o ih =>
    apply exists_turns_of_turn
    rw [turn]
    simp only [if_neg hroom, if_neg hseen]
    exact ih

/-- The search from a state ends after some number of turns. -/
theorem exists_turns_eq_survey (net : Network) (frames : CallStack) (limit : Nat)
    (state : StateRef) (frame : FrameRef) :
    ∃ n, net.turns frames limit n (searchFrom state frame) =
      { survey := net.survey limit frames state frame, agenda := [] } :=
  exists_turns_eq {} [initial state frame]

/-- Once nothing waits, what has been found is the result. -/
theorem survey_of_turns_eq {n : Nat} {v : Survey}
    (h : net.turns frames limit n (searchFrom state frame) = { survey := v, agenda := [] }) :
    net.survey limit frames state frame = v := by
  have hend : net.explore frames limit (net.turns frames limit n (searchFrom state frame)).survey
      (net.turns frames limit n (searchFrom state frame)).agenda =
        net.survey limit frames state frame := explore_turns n (searchFrom state frame)
  rw [h, explore] at hend
  exact hend.symm

/-! ## What every turn keeps -/

end Network

/-- A search that began at a configuration keeps to what can be come to from there: so it is with the
configurations that wait, with the keys seen, and with the codes found. -/
structure Search.Grounded (net : Network) (frames : CallStack) (c₀ : Configuration) (s : Search) :
    Prop where
  waiting : ∀ c ∈ s.agenda, net.Reaches frames c₀ c
  seen : ∀ key, s.survey.seen.contains key = true → ∃ c, net.Reaches frames c₀ c ∧ c.key = key
  found : ∀ k ∈ s.survey.look, net.Meets frames c₀ k

namespace Network

variable {net : Network} {frames : CallStack} {limit limit' : Nat} {c₀ : Configuration} {s : Search}
  {state : StateRef} {frame : FrameRef} {k : TokenCode}

theorem grounded_searchFrom (net : Network) (frames : CallStack) (state : StateRef)
    (frame : FrameRef) : (searchFrom state frame).Grounded net frames (initial state frame) := by
  refine ⟨?_, ?_, ?_⟩
  · intro c hc
    cases List.mem_singleton.1 hc
    exact ReflTransGen.refl
  · intro key hkey
    simp [searchFrom] at hkey
  · intro k hk
    exact absurd hk TokenSet.not_mem_empty

/-- Whatever a turn does with a configuration, it comes to nothing that cannot be come to. -/
theorem grounded_turn (h : s.Grounded net frames c₀) :
    (net.turn frames limit s).Grounded net frames c₀ := by
  obtain ⟨v, agenda⟩ := s
  obtain ⟨hwaiting, hseen, hfound⟩ := h
  cases agenda with
  | nil => exact ⟨hwaiting, hseen, hfound⟩
  | cons c agenda =>
    have hrest : ∀ d ∈ agenda, net.Reaches frames c₀ d := by
      intro d hd
      exact hwaiting d (List.mem_cons_of_mem c hd)
    rw [turn]
    dsimp only
    split
    · exact ⟨hrest, hseen, hfound⟩
    · split
      · exact ⟨hrest, hseen, hfound⟩
      · -- a look: what it shows can be come to from the configuration looked at
        have hc := hwaiting c List.mem_cons_self
        refine ⟨?_, ?_, ?_⟩
        · intro d hd
          rcases List.mem_append.1 hd with hd | hd
          · exact hc.tail (mem_next_iff.1 hd)
          · exact hrest d hd
        · intro key hkey
          rcases Survey.contains_record.1 hkey with rfl | hkey
          · exact ⟨c, hc, rfl⟩
          · exact hseen key hkey
        · intro k hk
          rcases TokenSet.mem_union.1 hk with hk | hk
          · exact hfound k hk
          · exact ⟨c, hc, mem_codes_iff.1 hk⟩

theorem grounded_turns (n : Nat) (state : StateRef) (frame : FrameRef) :
    (net.turns frames limit n (searchFrom state frame)).Grounded net frames
      (initial state frame) := by
  induction n with
  | zero => exact grounded_searchFrom net frames state frame
  | succ n ih =>
    rw [turns_succ]
    exact grounded_turn ih

/-! ## Other limits -/

theorem mem_look_explore {v : Survey} {agenda : List Configuration} (h : k ∈ v.look) :
    k ∈ (net.explore frames limit v agenda).look := by
  fun_induction explore net frames limit v agenda with
  | case1 v => exact h
  | case2 v c agenda hfull ih => exact ih h
  | case3 v c agenda hroom hseen ih => exact ih h
  | case4 v c agenda hroom hseen o ih => exact ih (TokenSet.mem_union.2 (Or.inl h))

/-- A search that may look at no more configurations finds nothing more. -/
theorem look_explore_of_full {v : Survey} {agenda : List Configuration}
    (h : limit ≤ v.seen.size) : (net.explore frames limit v agenda).look = v.look := by
  induction agenda generalizing v with
  | nil => rw [explore]
  | cons c agenda ih =>
    rw [explore, if_pos h]
    exact ih h

/-- What a search finds, it finds under every greater limit. -/
theorem mem_look_explore_of_limit_le {v : Survey} {agenda : List Configuration}
    (hlimit : limit ≤ limit') (h : k ∈ (net.explore frames limit v agenda).look) :
    k ∈ (net.explore frames limit' v agenda).look := by
  fun_induction explore net frames limit v agenda with
  | case1 v => exact mem_look_explore h
  | case2 v c agenda hfull ih =>
    -- from here on the smaller limit lets nothing through
    have hlook : (net.explore frames limit (v.refuse c) agenda).look = v.look :=
      look_explore_of_full (v := v.refuse c) hfull
    rw [hlook] at h
    exact mem_look_explore h
  | case3 v c agenda hroom hseen ih =>
    rw [explore, if_neg (by omega), dif_pos hseen]
    exact ih h
  | case4 v c agenda hroom hseen o ih =>
    rw [explore, if_neg (by omega), dif_neg hseen]
    exact ih h

/-! ## Justification -/

/-- No search invents anything, in whatever network and under whatever limit. After any number of
turns a walk leads to each configuration that waits, with the returns that it has there, and each code
found so far is on offer at the end of a walk. So it is with the result, even if configurations have
been left out as too many, and under a greater limit the result has all codes that it has. -/
theorem survey_justified (net : Network) (frames : CallStack) (limit : Nat) (state : StateRef)
    (frame : FrameRef) :
    (∀ n, let s := net.turns frames limit n (searchFrom state frame)
      (∀ c ∈ s.agenda, net.Walk frames ⟨state, [], frame⟩ ⟨c.state, c.returns, c.base⟩) ∧
      ∀ k ∈ s.survey.look, net.Admits frames ⟨state, [], frame⟩ k) ∧
    (∀ k ∈ (net.survey limit frames state frame).look, net.Admits frames ⟨state, [], frame⟩ k) ∧
    ∀ limit', limit ≤ limit' → ∀ k ∈ (net.survey limit frames state frame).look,
      k ∈ (net.survey limit' frames state frame).look := by
  have hturns : ∀ n, let s := net.turns frames limit n (searchFrom state frame)
      (∀ c ∈ s.agenda, net.Walk frames ⟨state, [], frame⟩ ⟨c.state, c.returns, c.base⟩) ∧
      ∀ k ∈ s.survey.look, net.Admits frames ⟨state, [], frame⟩ k := by
    intro n s
    have hgrounded : s.Grounded net frames (initial state frame) := grounded_turns n state frame
    refine ⟨?_, ?_⟩
    · intro c hc
      exact (hgrounded.waiting c hc).walk
    · intro k hk
      obtain ⟨d, hreach, hoffer⟩ := hgrounded.found k hk
      exact ⟨d.place, hreach.walk, hoffer⟩
  refine ⟨hturns, ?_, ?_⟩
  · -- the result is what has been found after the last turn
    intro k hk
    obtain ⟨n, hn⟩ := exists_turns_eq_survey net frames limit state frame
    have hlast := (hturns n).2
    rw [hn] at hlast
    exact hlast k hk
  · intro limit' hlimit k hk
    exact mem_look_explore_of_limit_le hlimit hk

/-- Instructions for two rules that run into each other, with edges to a state that is not there; the
second calls itself first. -/
def strayInstructions : List Instruction :=
  [.rule, .rule, .epsilon (reference 0) (reference 2), .one (reference 2) (reference 9) 5,
    .epsilon (reference 2) (reference 9), .call (reference 2) 1 (reference 1)]

/-- With two looks the search comes into the second rule and reads 5 there; the third is refused. -/
example :
    let v := ((empty 5).buildAll strayInstructions).value.2.survey 2 ∅ (reference 0) none
    v.look = {5} ∧ v.refused = some (reference 9) := by cbv

end Network

end SyntaxRecovery
