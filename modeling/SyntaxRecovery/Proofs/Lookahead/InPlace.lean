import Mathlib
import SyntaxRecovery.Proofs.Lookahead.Descent
import SyntaxRecovery.Proofs.Lookahead.Exactness
import SyntaxRecovery.Proofs.TokenSet.Equality

/-!
# Descents and agendas

A search takes configurations off the front of an agenda, and a descent goes down and comes back. The
two do the same: what the search does until it has come through one configuration, and through all
that it has put in front of the rest, is what the descent from this configuration does
(`Network.Serves`). A configuration that has waited meanwhile has kept its own path. The descent has
one path, and that path is right for what follows only because each descent leaves it as it was. The
main statement has both sides of this (`Network.descend_leaves_path`), and so a lookahead can be read
off a descent (`Network.lookahead_eq_descend`).
-/

set_option autoImplicit false

namespace SyntaxRecovery

/-! ## Two records of one search -/

/-- A survey and the findings of a descent are records of the same search. A survey does not tell the
place without a frame from the frame that is no reference; among the places of one kind it tells all
apart. -/
structure Survey.Mirrors (v : Survey) (framed : Bool) (f : Findings) : Prop where
  look : v.look = f.look
  refused : v.refused = f.refused
  size : v.seen.size = f.busy.card
  seen : ∀ (c : Configuration) (base : Option FrameRef), base.isSome = framed → c.base = base.join →
    (v.seen.contains c.key = true ↔ (c.state, c.returns, base) ∈ f.busy)

/-- A configuration is that of a state to which a descent has come on its path. -/
structure Configuration.Stands (c : Configuration) (base : Option FrameRef) (d : Descent) : Prop where
  returns : c.returns = d.returns
  base : c.base = base.join
  nodup : c.barred.Nodup
  barred : ∀ rule, rule ∈ c.barred ↔ rule ∈ d.called

namespace Survey

variable {v : Survey} {framed : Bool} {f : Findings} {d : Descent} {base : Option FrameRef}
  {c : Configuration} {codes codes' : TokenSet}

/-- With or without a frame, a reference to a frame is told from others. -/
theorem join_injective {base base' : Option FrameRef} (hkind : base.isSome = base'.isSome)
    (h : base.join = base'.join) : base = base' := by
  cases base <;> cases base' <;> simp_all

theorem mirrors_empty (framed : Bool) : Mirrors {} framed {} where
  look := rfl
  refused := rfl
  size := rfl
  seen c base _ _ := by simp

theorem Mirrors.refuse (h : v.Mirrors framed d.toFindings) (c : Configuration) :
    (v.refuse c).Mirrors framed (d.refuse c.state).toFindings where
  look := h.look
  refused := by
    change v.refused.or (some c.state) = d.refused.or (some c.state)
    rw [h.refused]
  size := h.size
  seen := h.seen

/-- More codes are found. -/
def widen (v : Survey) (codes : TokenSet) : Survey := { v with look := v.look ∪ codes }

@[simp] theorem widen_empty (v : Survey) : v.widen ∅ = v := rfl

theorem Mirrors.widen (h : v.Mirrors framed d.toFindings) (codes : TokenSet) :
    (v.widen codes).Mirrors framed (d.find codes).toFindings where
  look := by
    change v.look ∪ codes = d.look ∪ codes
    rw [h.look]
  refused := h.refused
  size := h.size
  seen := h.seen

/-- What has not been seen is recorded by the one as it is marked by the other. -/
theorem Mirrors.record (h : v.Mirrors framed d.toFindings) (hc : c.Stands base d)
    (hbase : base.isSome = framed) (hnew : (c.state, d.returns, base) ∉ d.busy) :
    (v.record c {}).Mirrors framed (d.mark c.state base).toFindings where
  look := by
    change v.look ∪ ∅ = d.look
    rw [TokenSet.union_empty, h.look]
  refused := h.refused
  size := by
    have hseen : v.seen.contains c.key ≠ true := by
      rw [ne_eq, h.seen c base hbase hc.base, hc.returns]
      exact hnew
    change (v.seen.insert c.key).size = _
    rw [Descent.card_mark hnew, Std.TreeSet.size_insert, h.size]
    simp [hseen]
  seen c' base' hbase' hc' := by
    rw [contains_record, h.seen c' base' hbase' hc', Descent.mark, Finset.mem_insert]
    refine or_congr_left ?_
    constructor
    · -- a key gives the place, and among places of one kind the place gives the frame
      intro hkey
      have hplace := Configuration.place_eq_of_key_eq hkey
      simp only [Configuration.place, Place.mk.injEq] at hplace
      obtain ⟨hstate, hreturns, hframe⟩ := hplace
      rw [hc', hc.base] at hframe
      rw [hstate, hreturns, hc.returns, join_injective (hbase'.trans hbase.symm) hframe]
    · intro hsame
      simp only [Prod.mk.injEq] at hsame
      obtain ⟨hstate, hreturns, rfl⟩ := hsame
      rw [Configuration.key, Configuration.key, hstate, hreturns, hc.returns, hc', hc.base]

end Survey

namespace Configuration.Stands

variable {c : Configuration} {base : Option FrameRef} {d d' : Descent} {rule : Nat}
  {follow : StateRef} {rest : List StateRef}

/-- A configuration stands for the path as long as the path is kept. -/
theorem keeps (hc : c.Stands base d) (h : d.Keeps d') : c.Stands base d' where
  returns := hc.returns.trans h.returns.symm
  base := hc.base
  nodup := hc.nodup
  barred r := by rw [hc.barred, h.called]

/-- Along an edge that takes nothing. -/
theorem free (hc : c.Stands base d) (target : StateRef) :
    Stands { c with state := target } base d where
  returns := hc.returns
  base := hc.base
  nodup := hc.nodup
  barred := hc.barred

/-- Into a rule that is not open. -/
theorem call (hc : c.Stands base d) (target : StateRef) (hfree : rule ∉ d.called) :
    Stands { c with state := target, returns := follow :: c.returns, barred := rule :: c.barred } base
      ((d.bar rule).push follow) where
  returns := congrArg (follow :: ·) hc.returns
  base := hc.base
  nodup := List.nodup_cons.2 ⟨mt (hc.barred rule).1 hfree, hc.nodup⟩
  barred r := by
    simp only [List.mem_cons, hc.barred]
    exact Finset.mem_insert.symm

theorem mem_erase_iff (hc : c.Stands base d) (rule r : Nat) :
    r ∈ c.barred.erase rule ↔ r ∈ (d.lift rule).called := by
  rw [hc.nodup.mem_erase_iff, hc.barred]
  exact Finset.mem_erase.symm

/-- Back to the return on top. -/
theorem ret (hc : c.Stands base d) (hreturns : d.returns = follow :: rest) :
    Stands { c with state := follow, returns := rest, barred := c.barred.erase rule } base
      (d.pop.lift rule) where
  returns := by
    change rest = d.returns.tail
    rw [hreturns, List.tail_cons]
  base := hc.base
  nodup := hc.nodup.erase rule
  barred := hc.mem_erase_iff rule

/-- Out of the rule of a frame, to its caller. -/
theorem leave (hc : c.Stands base d) (parent : FrameRef) :
    Stands { c with state := follow, base := parent, barred := c.barred.erase rule } (some parent)
      (d.lift rule) where
  returns := hc.returns
  base := rfl
  nodup := hc.nodup.erase rule
  barred := hc.mem_erase_iff rule

end Configuration.Stands

/-! ## A front of an agenda -/

namespace Move

variable {m : Move}

/-- A silent move that is no call takes nothing. -/
theorem isFree_of_isSilent (hsilent : m.isSilent = true)
    (hcall : ∀ rule follow, m ≠ .call rule follow) : m.isFree = true := by
  cases m with
  | epsilon => rfl
  | predicate rule index => rfl
  | call rule follow => exact absurd rfl (hcall rule follow)
  | one code => cases hsilent
  | range lo hi => cases hsilent
  | among codes => cases hsilent
  | any => cases hsilent

theorem label?_of_isSilent {greatest : TokenCode} (hsilent : m.isSilent = true) :
    m.label? greatest = none := by
  cases hlabel : m.label? greatest with
  | none => rfl
  | some codes =>
    have hreads := isSilent_eq_false_iff.2 ⟨codes, hlabel⟩
    cases hsilent.symm.trans hreads

end Move

namespace Network

variable {net : Network} {frames : CallStack} {limit : Nat} {framed : Bool} {v : Survey}
  {c : Configuration} {agenda front front' : List Configuration} {codes codes' : TokenSet}
  {f f' f'' : Findings}

theorem explore_of_full (h : limit ≤ v.seen.size) :
    net.explore frames limit v (c :: agenda) = net.explore frames limit (v.refuse c) agenda := by
  rw [explore, if_pos h]

theorem explore_of_seen (hroom : ¬ limit ≤ v.seen.size) (h : v.seen.contains c.key = true) :
    net.explore frames limit v (c :: agenda) = net.explore frames limit v agenda := by
  rw [explore, if_neg hroom, dif_pos h]

/-- A look at a configuration finds its codes, apart from which it goes on to others. -/
theorem explore_of_new (hroom : ¬ limit ≤ v.seen.size) (h : ¬ v.seen.contains c.key = true) :
    net.explore frames limit v (c :: agenda) =
      net.explore frames limit ((v.record c {}).widen (net.outlook frames c).codes)
        ((net.outlook frames c).next ++ agenda) := by
  rw [explore, if_neg hroom, dif_neg h]
  simp only [Survey.widen, Survey.record, TokenSet.union_empty]

/-- Codes found before a search are in its result and change nothing else. -/
theorem explore_widen (v : Survey) (agenda : List Configuration) (codes : TokenSet) :
    net.explore frames limit (v.widen codes) agenda =
      (net.explore frames limit v agenda).widen codes := by
  fun_induction explore net frames limit v agenda with
  | case1 v => rw [explore]
  | case2 v c agenda hfull ih =>
    rw [explore_of_full (v := v.widen codes) hfull, ← ih]
    rfl
  | case3 v c agenda hroom hseen ih => rw [explore_of_seen (v := v.widen codes) hroom hseen, ih]
  | case4 v c agenda hroom hseen o ih =>
    rw [explore_of_new (v := v.widen codes) hroom hseen, ← ih]
    congr 1
    -- the codes found before and those of the look, in either order
    simp only [Survey.widen, Survey.record, TokenSet.union_empty, TokenSet.union_assoc,
      TokenSet.union_comm codes]
    rfl

/-- A front of an agenda, with codes found before, serves in place of a descent: when the search has
come through the front, it has the findings with which the descent ends. -/
def Serves (net : Network) (frames : CallStack) (limit : Nat) (framed : Bool) (codes : TokenSet)
    (front : List Configuration) (f f' : Findings) : Prop :=
  ∀ (v : Survey) (agenda : List Configuration), v.Mirrors framed f →
    ∃ v' : Survey, v'.Mirrors framed f' ∧
      net.explore frames limit (v.widen codes) (front ++ agenda) = net.explore frames limit v' agenda

/-- One front behind the other. -/
theorem Serves.append (h : net.Serves frames limit framed codes front f f')
    (h' : net.Serves frames limit framed codes' front' f' f'') :
    net.Serves frames limit framed (codes ∪ codes') (front ++ front') f f'' := by
  intro v agenda hv
  -- the codes of the front behind are found too early, which changes nothing for the one before
  obtain ⟨v', hv', hfront⟩ := h v (front' ++ agenda) hv
  obtain ⟨v'', hv'', hrest⟩ := h' v' agenda hv'
  refine ⟨v'', hv'', ?_⟩
  have hcodes : v.widen (codes ∪ codes') = (v.widen codes).widen codes' := by
    simp only [Survey.widen, TokenSet.union_assoc]
  rw [hcodes, List.append_assoc, explore_widen, hfront, ← explore_widen, hrest]

/-- A configuration in front that is served without finding codes before. -/
theorem Serves.cons (h : net.Serves frames limit framed ∅ [c] f f')
    (h' : net.Serves frames limit framed codes front f' f'') :
    net.Serves frames limit framed codes (c :: front) f f'' := by
  rw [← TokenSet.empty_union codes]
  exact h.append h'

/-- An empty front serves in place of nothing but finding the codes. -/
theorem serves_nil (d : Descent) (codes : TokenSet) :
    net.Serves frames limit framed codes [] d.toFindings (d.find codes).toFindings := by
  intro v agenda hv
  exact ⟨v.widen codes, hv.widen codes, rfl⟩

/-- A configuration too many is left out. -/
theorem serves_of_full {d : Descent} (hfull : limit ≤ d.busy.card) :
    net.Serves frames limit framed ∅ [c] d.toFindings (d.refuse c.state).toFindings := by
  intro v agenda hv
  have hv' : limit ≤ v.seen.size := by rwa [hv.size]
  refine ⟨v.refuse c, hv.refuse c, ?_⟩
  rw [Survey.widen_empty]
  exact explore_of_full hv'

section Fronts

variable {d : Descent} {base : Option FrameRef} (hc : c.Stands base d)
  (hbase : base.isSome = framed)
include hc hbase

/-- A configuration that has been seen is passed over. -/
theorem serves_of_seen (hroom : ¬ limit ≤ d.busy.card)
    (hseen : (c.state, d.returns, base) ∈ d.busy) :
    net.Serves frames limit framed ∅ [c] d.toFindings d.toFindings := by
  intro v agenda hv
  have hroom' : ¬ limit ≤ v.seen.size := by rwa [hv.size]
  have hseen' : v.seen.contains c.key = true := by rwa [hv.seen c base hbase hc.base, hc.returns]
  refine ⟨v, hv, ?_⟩
  rw [Survey.widen_empty]
  exact explore_of_seen hroom' hseen'

/-- A new configuration serves as what it leads to, after it has been marked. -/
theorem serves_of_new (hroom : ¬ limit ≤ d.busy.card)
    (hnew : (c.state, d.returns, base) ∉ d.busy)
    (h : net.Serves frames limit framed (net.outlook frames c).codes (net.outlook frames c).next
      (d.mark c.state base).toFindings f') :
    net.Serves frames limit framed ∅ [c] d.toFindings f' := by
  intro v agenda hv
  have hroom' : ¬ limit ≤ v.seen.size := by rwa [hv.size]
  have hnew' : ¬ v.seen.contains c.key = true := by rwa [hv.seen c base hbase hc.base, hc.returns]
  obtain ⟨v', hv', hrest⟩ := h (v.record c {}) agenda (hv.record hc hbase hnew)
  refine ⟨v', hv', ?_⟩
  rw [Survey.widen_empty, ← hrest]
  exact explore_of_new hroom' hnew'

end Fronts

/-! ## One look -/

section Looks

variable {s : State} {base : Option FrameRef} {d : Descent}

theorem outlook_of_unknown (hs : net.state? c.state = none) : net.outlook frames c = {} := by
  simp only [outlook, hs]

theorem outlook_of_return (hs : net.state? c.state = some s) (hstop : s.isStop = true)
    {follow : StateRef} {rest : List StateRef} (hreturns : c.returns = follow :: rest) :
    net.outlook frames c =
      { next := [{ c with state := follow, returns := rest, barred := c.barred.erase s.rule }] } := by
  simp only [outlook, hs, hstop, if_true, hreturns]

/-- At the end of a rule that the search has not entered. -/
theorem outlook_of_end (hs : net.state? c.state = some s) (hstop : s.isStop = true)
    (hreturns : c.returns = []) (hc : c.base = base.join) :
    net.outlook frames c = match net.afterRule frames base with
      | .inl codes => { codes }
      | .inr (follow, parent) =>
        { next := [{ c with state := follow, base := parent, barred := c.barred.erase s.rule }] } := by
  have hframe : frames.get? c.base = base.bind frames.get? := by
    rw [hc]
    cases base <;> rfl
  simp only [outlook, hs, hstop, if_true, hreturns, leave, afterRule, hframe]
  cases base.bind frames.get? with
  | none => rfl
  | some frame =>
    by_cases hout : frame.isOutermost = true
    · simp only [if_pos hout]
    · simp only [if_neg hout]
      cases net.returnState? frame.invoking <;> rfl

/-- An edge with a label leads nowhere without a token. -/
theorem follow?_of_label {e : Edge} (h : e.move.label? net.greatest = some codes) :
    follow? c e = none := by
  rw [follow?]
  cases hmove : e.move <;> simp_all [Move.label?]

/-- The codes on some edges. -/
def codesOn (net : Network) (edges : List Edge) : TokenSet :=
  (edges.filterMap fun e => e.move.label? net.greatest).foldl (· ∪ ·) ∅

theorem outlook_of_edges (hs : net.state? c.state = some s) (hgo : ¬ s.isStop = true) :
    net.outlook frames c =
      { codes := net.codesOn s.edges, next := s.edges.filterMap (follow? c) } := by
  simp only [outlook, hs, if_neg hgo]
  rfl

theorem codesOn_cons_of_none {e : Edge} {edges : List Edge} (h : e.move.label? net.greatest = none) :
    net.codesOn (e :: edges) = net.codesOn edges := by
  simp only [codesOn, List.filterMap_cons, h]

theorem codesOn_cons_of_some {e : Edge} {edges : List Edge}
    (h : e.move.label? net.greatest = some codes) :
    net.codesOn (e :: edges) = codes ∪ net.codesOn edges := by
  apply TokenSet.eq_of_mem_iff
  intro k
  simp only [codesOn, List.filterMap_cons, h, TokenSet.mem_union, TokenSet.mem_foldl_union,
    TokenSet.not_mem_empty, false_or, List.exists_mem_cons_iff]

end Looks

/-! ## A whole descent -/

/-- Where a caller goes on there has been a frame. -/
theorem isSome_of_afterRule {base : Option FrameRef} {caller : StateRef × FrameRef}
    (h : net.afterRule frames base = .inr caller) : base.isSome = true := by
  cases base with
  | none => cases h
  | some b => rfl

/-- A configuration serves in place of the descent from its state, and the configurations behind the
edges of a state in place of the descent along them. -/
theorem serves_descend_and_descendEdges (net : Network) (frames : CallStack) (limit : Nat) :
    (∀ state base (d : Descent) (c : Configuration), c.state = state → c.Stands base d →
      net.Serves frames limit base.isSome ∅ [c] d.toFindings
        (net.descend frames limit state base d).val.toFindings) ∧
    ∀ edges base (d : Descent) (c : Configuration), c.Stands base d →
      net.Serves frames limit base.isSome (net.codesOn edges) (edges.filterMap (follow? c))
        d.toFindings (net.descendEdges frames limit edges base d).val.toFindings := by
  apply descend.mutual_induct net frames limit
    (fun state base (d : Descent) => ∀ c : Configuration, c.state = state → c.Stands base d →
      net.Serves frames limit base.isSome ∅ [c] d.toFindings
        (net.descend frames limit state base d).val.toFindings)
    (fun edges base (d : Descent) => ∀ c : Configuration, c.Stands base d →
      net.Serves frames limit base.isSome (net.codesOn edges) (edges.filterMap (follow? c))
        d.toFindings (net.descendEdges frames limit edges base d).val.toFindings)
  -- the configuration is left out, passed over, or looked at
  case case1 =>
    rintro _ base d hfull c rfl hc
    rw [descend_of_full hfull]
    exact serves_of_full hfull
  case case2 =>
    rintro _ base d hroom hseen c rfl hc
    rw [descend_of_seen hroom hseen]
    exact serves_of_seen hc rfl hroom hseen
  case case3 =>
    rintro _ base d hroom hnew hs c rfl hc
    rw [descend_of_unknown hroom hnew hs]
    apply serves_of_new hc rfl hroom hnew
    rw [outlook_of_unknown hs]
    exact serves_nil (d.mark c.state base) ∅
  -- at the end of a rule one configuration follows at most
  case case4 =>
    rintro _ base d hroom hnew s hs hstop follow rest hreturns ih c rfl hc
    rw [descend_of_return hroom hnew hs hstop hreturns]
    apply serves_of_new hc rfl hroom hnew
    rw [outlook_of_return hs hstop (hc.returns.trans hreturns)]
    exact ih _ rfl ((hc.keeps (d.keeps_mark c.state base)).ret hreturns)
  case case5 =>
    rintro _ base d hroom hnew s hs hstop hreturns codes hafter c rfl hc
    rw [descend_of_codes hroom hnew hs hstop hreturns hafter]
    apply serves_of_new hc rfl hroom hnew
    rw [outlook_of_end hs hstop (hc.returns.trans hreturns) hc.base, hafter]
    exact serves_nil (d.mark c.state base) codes
  case case6 =>
    rintro _ base d hroom hnew s hs hstop hreturns follow parent hafter ih c rfl hc
    rw [descend_of_caller hroom hnew hs hstop hreturns hafter]
    apply serves_of_new hc rfl hroom hnew
    rw [outlook_of_end hs hstop (hc.returns.trans hreturns) hc.base, hafter,
      isSome_of_afterRule hafter]
    exact ih _ rfl ((hc.keeps (d.keeps_mark c.state base)).leave parent)
  -- the codes on all edges are found at once, before the configurations behind them are taken up
  case case7 =>
    rintro _ base d hroom hnew s hs hgo ih c rfl hc
    rw [descend_of_edges hroom hnew hs hgo]
    apply serves_of_new hc rfl hroom hnew
    rw [outlook_of_edges hs hgo]
    exact ih c (hc.keeps (d.keeps_mark c.state base))
  case case8 =>
    intro base d c hc
    rw [descendEdges_nil]
    exact serves_nil d ∅
  -- an edge with a configuration behind it comes before the edges that are left
  case case9 =>
    intro base d e edges rule follow hmove hbarred ih c hc
    have hnone : follow? c e = none := by
      simp only [follow?, hmove, if_pos ((hc.barred rule).2 hbarred)]
    rw [descendEdges_of_barred hmove hbarred, List.filterMap_cons_none hnone,
      codesOn_cons_of_none (by rw [hmove]; rfl)]
    exact ih c hc
  case case10 =>
    intro base d e edges rule follow hmove hfree inner ihinner _ ih c hc
    have hopen : rule ∉ c.barred := mt (hc.barred rule).1 hfree
    have hsome := follow?_eq_some_iff.2 (Or.inr ⟨rule, follow, hmove, hopen, rfl⟩)
    rw [descendEdges_of_call hmove hfree, List.filterMap_cons_some hsome,
      codesOn_cons_of_none (by rw [hmove]; rfl)]
    -- behind the called rule the path is what it was before the call
    have hkeeps := (keeps_descend net frames limit e.target base ((d.bar rule).push follow)).pop.lift
      hfree
    exact (ihinner _ rfl (hc.call e.target hfree)).cons (ih c (hc.keeps hkeeps))
  case case11 =>
    intro base d e edges inner hcall hsilent ihinner _ ih c hc
    have hfree : e.move.isFree = true := Move.isFree_of_isSilent hsilent hcall
    have hsome := follow?_eq_some_iff (c := c).2 (Or.inl ⟨hfree, rfl⟩)
    rw [descendEdges_of_free hcall hsilent, List.filterMap_cons_some hsome,
      codesOn_cons_of_none (Move.label?_of_isSilent hsilent)]
    have hkeeps := keeps_descend net frames limit e.target base d
    exact (ihinner _ rfl (hc.free e.target)).cons (ih c (hc.keeps hkeeps))
  case case12 =>
    intro base d e edges codes hcall hreads hcodes ih c hc
    rw [descendEdges_of_label hcodes, List.filterMap_cons_none (follow?_of_label hcodes),
      codesOn_cons_of_some hcodes]
    exact (serves_nil d codes).append (ih c (hc.keeps (d.keeps_find codes)))
  case case13 =>
    -- an edge that is not silent has a label
    intro base d e edges hcall hreads hnone ih
    obtain ⟨codes, hcodes⟩ := Move.isSilent_eq_false_iff.1 (Bool.eq_false_iff.2 hreads)
    rw [hnone] at hcodes
    cases hcodes

/-- A lookahead shows what a descent finds that begins with nothing, and notes what was one too
many. -/
theorem lookahead_eq_descend (net : Network) (frames : CallStack) (state : StateRef)
    (frame : FrameRef) :
    net.lookahead frames state frame =
      let d := (net.descend frames surveyLimit state (frame.map some) {}).val
      match d.refused with
      | some refused => .after (.analysisLimit refused surveyLimit) d.look
      | none => pure d.look := by
  have hstands : (initial state frame).Stands (frame.map some) {} := by
    refine ⟨rfl, ?_, List.nodup_nil, fun rule => by simp [initial]⟩
    cases frame <;> rfl
  obtain ⟨v, hv, hsurvey⟩ := (serves_descend_and_descendEdges net frames surveyLimit).1 state
    (frame.map some) {} (initial state frame) rfl hstands {} [] (Survey.mirrors_empty _)
  have hend : net.survey surveyLimit frames state frame = v := by
    rw [explore] at hsurvey
    exact hsurvey
  cases hrefused : v.refused with
  | none => simp only [lookahead, hend, hrefused, hv.look, hv.refused.symm.trans hrefused]
  | some refused => simp only [lookahead, hend, hrefused, hv.look, hv.refused.symm.trans hrefused]

/-- However a descent ends, by the limit, at a place that has been looked at, at a state that is not
there, at the end of a rule, or after all edges, it leaves the rules and the returns on its path as they
were; what has been looked at and what has been found stays so, and once something was one too many,
something was. The search along an agenda keeps a path with every configuration; up to the rest of the
agenda it does what the descent does on its one path. -/
theorem descend_leaves_path (net : Network) (frames : CallStack) (limit : Nat) (state : StateRef)
    (base : Option FrameRef) (d : Descent) :
    let d' := (net.descend frames limit state base d).val
    d'.returns = d.returns ∧ d'.called = d.called ∧ d.busy ⊆ d'.busy ∧
    (∀ c, c ∈ d.look → c ∈ d'.look) ∧ (d.exhausted = true → d'.exhausted = true) ∧
    ∀ (v : Survey) (c : Configuration) (agenda : List Configuration),
      v.Mirrors base.isSome d.toFindings → c.state = state → c.Stands base d →
        ∃ v' : Survey, v'.Mirrors base.isSome d'.toFindings ∧
          net.explore frames limit v (c :: agenda) = net.explore frames limit v' agenda := by
  intro d'
  have hkeeps : d.Keeps d' := keeps_descend net frames limit state base d
  refine ⟨hkeeps.returns, hkeeps.called, hkeeps.busy, hkeeps.look, ?_, ?_⟩
  · intro hexhausted
    obtain ⟨first, hfirst⟩ := Option.isSome_iff_exists.1 hexhausted
    exact Option.isSome_iff_exists.2 ⟨first, hkeeps.refused first hfirst⟩
  · intro v c agenda hv hstate hc
    exact (serves_descend_and_descendEdges net frames limit).1 state base d c hstate hc v agenda hv

/-- From the end of a sum that was called there is a way back to where its caller reads `'+'`; with room
for no more than these two looks, the return and the bar are on the path again at the end. -/
example :
    let d := (sums.descend ∅ 2 (reference 1) none { called := {0}, returns := [reference 3] }).val
    d.look = {1} ∧ d.exhausted = false ∧ d.returns = [reference 3] ∧ d.called.card = 1 := by cbv

end Network

end SyntaxRecovery
