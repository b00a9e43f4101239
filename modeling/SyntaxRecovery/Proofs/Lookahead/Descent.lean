import Mathlib
import SyntaxRecovery.Proofs.Lookahead.Search

/-!
# The search made in place

A search whose configurations wait on an agenda has with each of them the path on which it was come
to. The same search can be made by descent, with one path for all of it (`Network.descend`). A call
bars its rule and puts its return on the path, and both are taken off again behind the called rule;
where a rule stops, its bar is lifted and its return taken off, and both are put back behind what comes
after it. Each of these changes is undone by its opposite, whatever has been found in between, as long
as what lies in between undoes its own. So a descent leaves the path as it has found it, however it
ends, and forgets nothing that was known before (`Network.keeps_descend`).
-/

set_option autoImplicit false

namespace SyntaxRecovery

/-- What a search made in place has come to know. -/
structure Findings where
  /-- The codes found. -/
  look : TokenSet := ∅
  /-- What has been looked at: a state, the returns on the path to it, and the frame of the rule that
  is left when there is no return. -/
  busy : Finset (StateRef × List StateRef × Option FrameRef) := ∅
  /-- The first state that was one too many, if any was. -/
  refused : Option StateRef := none
deriving DecidableEq

/-- A search under way whose path is kept in place. -/
structure Descent extends Findings where
  /-- The rules open on the path, which may not be entered. -/
  called : Finset Nat := ∅
  /-- The states in which the callers of the rules entered go on, innermost first. -/
  returns : List StateRef := []
deriving DecidableEq

namespace Descent

/-- Whether anything was one too many. -/
def exhausted (d : Descent) : Bool := d.refused.isSome

/-- A state is left out as one too many; the first of them is kept. -/
def refuse (d : Descent) (state : StateRef) : Descent :=
  { d with refused := d.refused.or (some state) }

/-- A state is looked at. -/
def mark (d : Descent) (state : StateRef) (base : Option FrameRef) : Descent :=
  { d with busy := insert (state, d.returns, base) d.busy }

/-- Codes are found. -/
def find (d : Descent) (codes : TokenSet) : Descent := { d with look := d.look ∪ codes }

/-- A return is put on the path. -/
def push (d : Descent) (follow : StateRef) : Descent := { d with returns := follow :: d.returns }

/-- The return on top is taken off the path. -/
def pop (d : Descent) : Descent := { d with returns := d.returns.tail }

/-- A rule is barred. -/
def bar (d : Descent) (rule : Nat) : Descent := { d with called := insert rule d.called }

/-- The bar of a rule is lifted, if there is one. -/
def lift (d : Descent) (rule : Nat) : Descent := { d with called := d.called.erase rule }

/-- A rule is barred again, if its bar was lifted. -/
def restore (d : Descent) (rule : Nat) (lifted : Bool) : Descent :=
  { d with called := if lifted then insert rule d.called else d.called }

/-- A later stage of a search, with no less looked at. -/
abbrev Later (d : Descent) := { d' : Descent // d.busy.card ≤ d'.busy.card }

theorem card_le_mark (d : Descent) (state : StateRef) (base : Option FrameRef) :
    d.busy.card ≤ (d.mark state base).busy.card :=
  Finset.card_le_card (Finset.subset_insert _ _)

/-- What is looked at for the first time takes up room. -/
theorem card_mark {d : Descent} {state : StateRef} {base : Option FrameRef}
    (h : (state, d.returns, base) ∉ d.busy) :
    (d.mark state base).busy.card = d.busy.card + 1 := Finset.card_insert_of_notMem h

end Descent

namespace Network

/-- What comes after a rule that the search has not entered: codes, or the state in which the caller
of its frame goes on, with the caller's frame. -/
def afterRule (net : Network) (frames : CallStack) (base : Option FrameRef) :
    TokenSet ⊕ StateRef × FrameRef :=
  match base.bind frames.get? with
  | none => .inl {TokenCode.ruleEnd}
  | some frame =>
    if frame.isOutermost then .inl {TokenCode.endOfInput}
    else match net.returnState? frame.invoking with
      | none => .inl {TokenCode.ruleEnd}
      | some follow => .inr (follow, frame.parent)

mutual

/-- The search from a state to which the path is in place. -/
def descend (net : Network) (frames : CallStack) (limit : Nat) (state : StateRef)
    (base : Option FrameRef) (d : Descent) : d.Later :=
  if limit ≤ d.busy.card then ⟨d.refuse state, Nat.le_refl _⟩
  else if _seen : (state, d.returns, base) ∈ d.busy then ⟨d, Nat.le_refl _⟩
  else
    match net.state? state with
    | none => ⟨d.mark state base, d.card_le_mark state base⟩
    | some s =>
      if s.isStop then
        let lifted := decide (s.rule ∈ d.called)
        match d.returns with
        -- the rule was entered by the search: its return and its bar are off while the caller goes on
        | follow :: _ =>
          let d' := net.descend frames limit follow base (((d.mark state base).pop).lift s.rule)
          ⟨(d'.val.restore s.rule lifted).push follow, (d.card_le_mark state base).trans d'.property⟩
        | [] =>
          match net.afterRule frames base with
          | .inl codes => ⟨(d.mark state base).find codes, d.card_le_mark state base⟩
          -- the rule was not entered, so there is no return to take off
          | .inr (follow, parent) =>
            let d' := net.descend frames limit follow (some parent) ((d.mark state base).lift s.rule)
            ⟨d'.val.restore s.rule lifted, (d.card_le_mark state base).trans d'.property⟩
      else
        let d' := net.descendEdges frames limit s.edges base (d.mark state base)
        ⟨d'.val, (d.card_le_mark state base).trans d'.property⟩
termination_by (limit - d.busy.card, 0)
decreasing_by
  -- the state that is marked takes up room
  all_goals
    left
    have hcard := Descent.card_mark _seen
    change limit - (d.mark state base).busy.card < limit - d.busy.card
    omega

/-- The search along the edges of a state, one after the other. -/
def descendEdges (net : Network) (frames : CallStack) (limit : Nat) (edges : List Edge)
    (base : Option FrameRef) (d : Descent) : d.Later :=
  match edges with
  | [] => ⟨d, Nat.le_refl _⟩
  | e :: edges =>
    match e.move with
    | .call rule follow =>
      -- a rule that is open on the path is not entered again
      if rule ∈ d.called then net.descendEdges frames limit edges base d
      else
        let inner := net.descend frames limit e.target base ((d.bar rule).push follow)
        let d' := net.descendEdges frames limit edges base ((inner.val.pop).lift rule)
        ⟨d'.val, inner.property.trans d'.property⟩
    | move =>
      if move.isSilent then
        let inner := net.descend frames limit e.target base d
        let d' := net.descendEdges frames limit edges base inner.val
        ⟨d'.val, inner.property.trans d'.property⟩
      else match move.label? net.greatest with
        | some codes =>
          let d' := net.descendEdges frames limit edges base (d.find codes)
          ⟨d'.val, d'.property⟩
        | none => net.descendEdges frames limit edges base d
termination_by (limit - d.busy.card, edges.length + 1)
decreasing_by
  -- there are fewer edges left, and no less has been looked at
  · exact Prod.Lex.right' _ (Nat.le_refl _) (by simp)
  · exact Prod.Lex.right' _ (Nat.le_refl _) (by simp)
  · exact Prod.Lex.right' _ (Nat.sub_le_sub_left inner.property limit) (by simp)
  · exact Prod.Lex.right' _ (Nat.le_refl _) (by simp)
  · exact Prod.Lex.right' _ (Nat.sub_le_sub_left inner.property limit) (by simp)
  · exact Prod.Lex.right' _ (Nat.le_refl _) (by simp)
  · exact Prod.Lex.right' _ (Nat.le_refl _) (by simp)

end

end Network

/-! ## Changes that are undone -/

namespace Descent

variable {d d' d'' : Descent} {state : StateRef} {base : Option FrameRef} {codes : TokenSet}
  {rule : Nat} {follow : StateRef} {rest : List StateRef}

/-- A later stage of a search, on the same path and with all that was known before. -/
structure Keeps (d d' : Descent) : Prop where
  returns : d'.returns = d.returns
  called : d'.called = d.called
  busy : d.busy ⊆ d'.busy
  look : ∀ c ∈ d.look, c ∈ d'.look
  refused : ∀ state, d.refused = some state → d'.refused = some state

theorem keeps_refl (d : Descent) : d.Keeps d where
  returns := rfl
  called := rfl
  busy := Finset.Subset.refl _
  look _ hc := hc
  refused _ h := h

theorem Keeps.trans (h : d.Keeps d') (h' : d'.Keeps d'') : d.Keeps d'' where
  returns := h'.returns.trans h.returns
  called := h'.called.trans h.called
  busy := h.busy.trans h'.busy
  look c hc := h'.look c (h.look c hc)
  refused state hr := h'.refused state (h.refused state hr)

theorem keeps_refuse (d : Descent) (state : StateRef) : d.Keeps (d.refuse state) where
  returns := rfl
  called := rfl
  busy := Finset.Subset.refl _
  look _ hc := hc
  refused first hr := by simp [refuse, hr]

theorem keeps_mark (d : Descent) (state : StateRef) (base : Option FrameRef) :
    d.Keeps (d.mark state base) where
  returns := rfl
  called := rfl
  busy := Finset.subset_insert _ _
  look _ hc := hc
  refused _ hr := hr

theorem keeps_find (d : Descent) (codes : TokenSet) : d.Keeps (d.find codes) where
  returns := rfl
  called := rfl
  busy := Finset.Subset.refl _
  look _ hc := TokenSet.mem_union.2 (Or.inl hc)
  refused _ hr := hr

/-- A return that is pushed is popped. -/
theorem Keeps.pop (h : (d.push follow).Keeps d') : d.Keeps d'.pop where
  returns := by
    change d'.returns.tail = d.returns
    rw [h.returns, Descent.push, List.tail_cons]
  called := h.called
  busy := h.busy
  look := h.look
  refused := h.refused

/-- A return that is popped is pushed. -/
theorem Keeps.push (h : d.pop.Keeps d') (hd : d.returns = follow :: rest) :
    d.Keeps (d'.push follow) where
  returns := by
    change follow :: d'.returns = d.returns
    rw [h.returns, Descent.pop, hd, List.tail_cons]
  called := h.called
  busy := h.busy
  look := h.look
  refused := h.refused

/-- A bar that was not there is lifted. -/
theorem Keeps.lift (h : (d.bar rule).Keeps d') (hd : rule ∉ d.called) : d.Keeps (d'.lift rule) where
  returns := h.returns
  called := by
    change d'.called.erase rule = d.called
    rw [h.called, Descent.bar, Finset.erase_insert hd]
  busy := h.busy
  look := h.look
  refused := h.refused

/-- A bar that is lifted, if it was there, is put back, if it was there. -/
theorem Keeps.restore (h : (d.lift rule).Keeps d') :
    d.Keeps (d'.restore rule (decide (rule ∈ d.called))) where
  returns := h.returns
  called := by
    simp only [Descent.restore, decide_eq_true_eq, h.called, Descent.lift]
    split
    · next hbarred => exact Finset.insert_erase hbarred
    · next hfree => exact Finset.erase_eq_of_notMem hfree
  busy := h.busy
  look := h.look
  refused := h.refused

end Descent

/-! ## One step of a descent -/

namespace Network

section Steps

variable {net : Network} {frames : CallStack} {limit : Nat} {state : StateRef}
  {base : Option FrameRef} {d : Descent} {s : State} {e : Edge} {edges : List Edge}

theorem descend_of_full (h : limit ≤ d.busy.card) :
    (net.descend frames limit state base d).val = d.refuse state := by
  rw [descend, if_pos h]

theorem descend_of_seen (hroom : ¬ limit ≤ d.busy.card) (h : (state, d.returns, base) ∈ d.busy) :
    (net.descend frames limit state base d).val = d := by
  rw [descend, if_neg hroom, dif_pos h]

section Fresh

variable (hroom : ¬ limit ≤ d.busy.card) (hnew : (state, d.returns, base) ∉ d.busy)
include hroom hnew

theorem descend_of_unknown (hs : net.state? state = none) :
    (net.descend frames limit state base d).val = d.mark state base := by
  rw [descend, if_neg hroom, dif_neg hnew]
  simp only [hs]

theorem descend_of_return (hs : net.state? state = some s) (hstop : s.isStop = true)
    {follow : StateRef} {rest : List StateRef} (hreturns : d.returns = follow :: rest) :
    (net.descend frames limit state base d).val =
      ((net.descend frames limit follow base ((d.mark state base).pop.lift s.rule)).val.restore s.rule
        (decide (s.rule ∈ d.called))).push follow := by
  rw [descend, if_neg hroom, dif_neg hnew]
  simp only [hs, if_pos hstop]
  split
  · next h =>
    cases hreturns.symm.trans h
    rfl
  · next h => cases hreturns.symm.trans h

theorem descend_of_codes (hs : net.state? state = some s) (hstop : s.isStop = true)
    (hreturns : d.returns = []) {codes : TokenSet} (hafter : net.afterRule frames base = .inl codes) :
    (net.descend frames limit state base d).val = (d.mark state base).find codes := by
  rw [descend, if_neg hroom, dif_neg hnew]
  simp only [hs, if_pos hstop]
  split
  · next h => cases hreturns.symm.trans h
  · simp only [hafter]

theorem descend_of_caller (hs : net.state? state = some s) (hstop : s.isStop = true)
    (hreturns : d.returns = []) {follow : StateRef} {parent : FrameRef}
    (hafter : net.afterRule frames base = .inr (follow, parent)) :
    (net.descend frames limit state base d).val =
      (net.descend frames limit follow (some parent) ((d.mark state base).lift s.rule)).val.restore
        s.rule (decide (s.rule ∈ d.called)) := by
  rw [descend, if_neg hroom, dif_neg hnew]
  simp only [hs, if_pos hstop]
  split
  · next h => cases hreturns.symm.trans h
  · simp only [hafter]

theorem descend_of_edges (hs : net.state? state = some s) (hgo : ¬ s.isStop = true) :
    (net.descend frames limit state base d).val =
      (net.descendEdges frames limit s.edges base (d.mark state base)).val := by
  rw [descend, if_neg hroom, dif_neg hnew]
  simp only [hs, if_neg hgo]

end Fresh

theorem descendEdges_nil : (net.descendEdges frames limit [] base d).val = d := by
  rw [descendEdges]

theorem descendEdges_of_barred {rule : Nat} {follow : StateRef} (hmove : e.move = .call rule follow)
    (hbarred : rule ∈ d.called) :
    net.descendEdges frames limit (e :: edges) base d =
      net.descendEdges frames limit edges base d := by
  rw [descendEdges]
  simp only [hmove, if_pos hbarred]

theorem descendEdges_of_call {rule : Nat} {follow : StateRef} (hmove : e.move = .call rule follow)
    (hfree : rule ∉ d.called) :
    let inner := net.descend frames limit e.target base ((d.bar rule).push follow)
    (net.descendEdges frames limit (e :: edges) base d).val =
      (net.descendEdges frames limit edges base (inner.val.pop.lift rule)).val := by
  rw [descendEdges]
  simp only [hmove, if_neg hfree]

theorem descendEdges_of_free (hcall : ∀ rule follow, e.move ≠ .call rule follow)
    (hsilent : e.move.isSilent = true) :
    let inner := net.descend frames limit e.target base d
    (net.descendEdges frames limit (e :: edges) base d).val =
      (net.descendEdges frames limit edges base inner.val).val := by
  rw [descendEdges]
  split
  · next rule follow hmove => exact absurd hmove (hcall rule follow)
  · simp only [if_pos hsilent]

theorem descendEdges_of_label {codes : TokenSet} (hcodes : e.move.label? net.greatest = some codes) :
    (net.descendEdges frames limit (e :: edges) base d).val =
      (net.descendEdges frames limit edges base (d.find codes)).val := by
  have hreads : e.move.isSilent = false := Move.isSilent_eq_false_iff.2 ⟨codes, hcodes⟩
  rw [descendEdges]
  split
  · next rule follow hmove => simp [hmove, Move.label?] at hcodes
  · simp only [hreads, Bool.false_eq_true, if_false, hcodes]

end Steps

/-! ## What every descent keeps -/

/-- A descent from a state, and one along edges, ends with the path on which it began. The induction
is on the descent itself: what lies between a change of the path and its opposite is a descent again. -/
theorem keeps_descend_and_descendEdges (net : Network) (frames : CallStack) (limit : Nat) :
    (∀ state base (d : Descent), d.Keeps (net.descend frames limit state base d).val) ∧
      ∀ edges base (d : Descent), d.Keeps (net.descendEdges frames limit edges base d).val := by
  apply descend.mutual_induct net frames limit
    (fun state base (d : Descent) => d.Keeps (net.descend frames limit state base d).val)
    (fun edges base (d : Descent) => d.Keeps (net.descendEdges frames limit edges base d).val)
  -- the descents that end where they begin: no room, a place seen before, no state
  case case1 =>
    intro state base d hfull
    rw [descend_of_full hfull]
    exact d.keeps_refuse state
  case case2 =>
    intro state base d hroom hseen
    rw [descend_of_seen hroom hseen]
    exact d.keeps_refl
  case case3 =>
    intro state base d hroom hnew hs
    rw [descend_of_unknown hroom hnew hs]
    exact d.keeps_mark state base
  -- the end of a rule: back to the return, codes, or out to the caller of the frame
  case case4 =>
    intro state base d hroom hnew s hs hstop follow rest hreturns ih
    rw [descend_of_return hroom hnew hs hstop hreturns]
    exact (d.keeps_mark state base).trans (ih.restore.push hreturns)
  case case5 =>
    intro state base d hroom hnew s hs hstop hreturns codes hafter
    rw [descend_of_codes hroom hnew hs hstop hreturns hafter]
    exact (d.keeps_mark state base).trans (Descent.keeps_find _ codes)
  case case6 =>
    intro state base d hroom hnew s hs hstop hreturns follow parent hafter ih
    rw [descend_of_caller hroom hnew hs hstop hreturns hafter]
    exact (d.keeps_mark state base).trans ih.restore
  case case7 =>
    intro state base d hroom hnew s hs hgo ih
    rw [descend_of_edges hroom hnew hs hgo]
    exact (d.keeps_mark state base).trans ih
  -- the edges: none left, a call of an open rule, a call, an edge that takes nothing, a label
  case case8 =>
    intro base d
    rw [descendEdges_nil]
    exact d.keeps_refl
  case case9 =>
    intro base d e edges rule follow hmove hbarred ih
    rw [descendEdges_of_barred hmove hbarred]
    exact ih
  case case10 =>
    intro base d e edges rule follow hmove hfree inner ihinner _ ih
    rw [descendEdges_of_call hmove hfree]
    exact (ihinner.pop.lift hfree).trans ih
  case case11 =>
    intro base d e edges inner hcall hsilent ihinner _ ih
    rw [descendEdges_of_free hcall hsilent]
    exact ihinner.trans ih
  case case12 =>
    intro base d e edges codes hcall hreads hcodes ih
    rw [descendEdges_of_label hcodes]
    exact (d.keeps_find codes).trans ih
  case case13 =>
    -- an edge that is not silent has a label
    intro base d e edges hcall hreads hnone ih
    obtain ⟨codes, hcodes⟩ := Move.isSilent_eq_false_iff.1 (Bool.eq_false_iff.2 hreads)
    rw [hnone] at hcodes
    cases hcodes

theorem keeps_descend (net : Network) (frames : CallStack) (limit : Nat) (state : StateRef)
    (base : Option FrameRef) (d : Descent) : d.Keeps (net.descend frames limit state base d).val :=
  (keeps_descend_and_descendEdges net frames limit).1 state base d

end Network

end SyntaxRecovery
