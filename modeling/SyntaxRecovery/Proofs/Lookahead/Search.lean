import SyntaxRecovery.Network.Lookahead
import SyntaxRecovery.Proofs.Network.Walks
import SyntaxRecovery.Proofs.TokenSet.Membership

/-!
# The search behind a lookahead

From a configuration the search may go on to certain others (`Network.Next`), each a step of a walk
that the barred rules allow. The codes that a search finds are those on offer at the configurations
that it can reach: it finds no other code (`Network.explore_sound`), and if it leaves none out as one
too many, and configurations with one key are the same, it finds all of them
(`Network.explore_complete`).
-/

set_option autoImplicit false

namespace SyntaxRecovery

open Relation

/-! ## Keys -/

theorem referenceNumber_injective {r r' : Option Slot} (h : referenceNumber r = referenceNumber r') :
    r = r' := by
  cases r with
  | none =>
    cases r' with
    | none => rfl
    | some p =>
      have hlt := p.isLt
      simp only [referenceNumber] at h
      omega
  | some q =>
    cases r' with
    | none =>
      have hlt := q.isLt
      simp only [referenceNumber] at h
      omega
    | some p => exact congrArg some (Fin.ext h)

/-- The place of a configuration. -/
def Configuration.place (c : Configuration) : Place := ⟨c.state, c.returns, c.base⟩

/-- A key stands for one place. -/
theorem Configuration.place_eq_of_key_eq {c d : Configuration} (h : c.key = d.key) :
    c.place = d.place := by
  simp only [key, List.cons.injEq] at h
  obtain ⟨hstate, hbase, hreturns⟩ := h
  have hmap := (List.map_injective_iff.2 fun _ _ => referenceNumber_injective) hreturns
  exact Place.ext (referenceNumber_injective hstate) hmap (referenceNumber_injective hbase)

namespace Network

variable {net : Network} {frames : CallStack}

/-! ## One look -/

/-- The search goes on from one configuration to another. A call is left out if its rule is barred;
where a rule stops, its bar is lifted. -/
inductive Next (net : Network) (frames : CallStack) (c : Configuration) : Configuration → Prop
  | free {e : Edge} : net.HasEdge c.state e → e.move.isFree = true →
      Next net frames c { c with state := e.target }
  | call {e : Edge} {rule : Nat} {follow : StateRef} : net.HasEdge c.state e →
      e.move = .call rule follow → rule ∉ c.barred →
      Next net frames c
        { c with state := e.target, returns := follow :: c.returns, barred := rule :: c.barred }
  | ret {s : State} {follow : StateRef} {σ : List StateRef} : net.state? c.state = some s →
      s.isStop = true → c.returns = follow :: σ →
      Next net frames c { c with state := follow, returns := σ, barred := c.barred.erase s.rule }
  | leave {s : State} {f : Frame} {follow : StateRef} : net.state? c.state = some s →
      s.isStop = true → c.returns = [] → frames.get? c.base = some f → f.isOutermost = false →
      net.returnState? f.invoking = some follow →
      Next net frames c
        { c with state := follow, base := f.parent, barred := c.barred.erase s.rule }

theorem follow?_eq_some_iff {c d : Configuration} {e : Edge} :
    follow? c e = some d ↔
      (e.move.isFree = true ∧ d = { c with state := e.target }) ∨
      ∃ rule follow, e.move = .call rule follow ∧ rule ∉ c.barred ∧
        d = { c with
          state := e.target, returns := follow :: c.returns, barred := rule :: c.barred } := by
  rw [follow?]
  cases hmove : e.move with
  | call rule follow =>
    by_cases hbar : rule ∈ c.barred
    · simp [Move.isFree, hbar]
    · simp [Move.isFree, hbar, eq_comm]
  | _ => simp [Move.isFree, eq_comm]

theorem mem_labels_iff {s : State} {k : TokenCode} :
    k ∈ net.labels s ↔
      ∃ e ∈ s.edges, ∃ codes, e.move.label? net.greatest = some codes ∧ k ∈ codes := by
  rw [labels, TokenSet.mem_foldl_union]
  simp only [TokenSet.not_mem_empty, false_or, List.mem_filterMap]
  constructor
  · rintro ⟨codes, ⟨e, he, hcodes⟩, hk⟩
    exact ⟨e, he, codes, hcodes, hk⟩
  · rintro ⟨e, he, codes, hcodes, hk⟩
    exact ⟨codes, ⟨e, he, hcodes⟩, hk⟩

/-- A look shows the configurations to which the search goes on. -/
theorem mem_next_iff {c d : Configuration} :
    d ∈ (net.outlook frames c).next ↔ net.Next frames c d := by
  rw [outlook]
  constructor
  · intro h
    split at h
    · exact absurd h List.not_mem_nil
    · next s hs =>
      split at h
      · next hstop =>
        split at h
        · next follow σ hreturns =>
          rw [List.mem_singleton] at h
          subst h
          exact .ret hs hstop hreturns
        · next hreturns =>
          rw [leave] at h
          split at h
          · exact absurd h List.not_mem_nil
          · next f hf =>
            split at h
            · exact absurd h List.not_mem_nil
            · next hin =>
              split at h
              · exact absurd h List.not_mem_nil
              · next follow hreturn =>
                rw [List.mem_singleton] at h
                subst h
                exact .leave hs hstop hreturns hf (Bool.eq_false_iff.2 hin) hreturn
      · next hgo =>
        obtain ⟨e, he, hfollow⟩ := List.mem_filterMap.1 h
        have hedge : net.HasEdge c.state e := ⟨s, hs, Bool.eq_false_iff.2 hgo, he⟩
        rcases follow?_eq_some_iff.1 hfollow with ⟨hfree, rfl⟩ | ⟨rule, follow, hcall, hbar, rfl⟩
        · exact .free hedge hfree
        · exact .call hedge hcall hbar
  · intro h
    cases h with
    | free hedge hfree =>
      obtain ⟨s, hs, hgo, he⟩ := hedge
      simp only [hs, hgo, Bool.false_eq_true, if_false, List.mem_filterMap]
      exact ⟨_, he, follow?_eq_some_iff.2 (Or.inl ⟨hfree, rfl⟩)⟩
    | call hedge hcall hbar =>
      obtain ⟨s, hs, hgo, he⟩ := hedge
      simp only [hs, hgo, Bool.false_eq_true, if_false, List.mem_filterMap]
      exact ⟨_, he, follow?_eq_some_iff.2 (Or.inr ⟨_, _, hcall, hbar, rfl⟩)⟩
    | ret hs hstop hreturns =>
      simp only [hs, hstop, hreturns, if_true, List.mem_singleton]
    | leave hs hstop hreturns hf hin hreturn =>
      simp only [hs, hstop, hreturns, if_true, Network.leave, hf, hin, Bool.false_eq_true, if_false,
        hreturn, List.mem_singleton]

/-- A look shows the codes on offer. -/
theorem mem_codes_iff {c : Configuration} {k : TokenCode} :
    k ∈ (net.outlook frames c).codes ↔ net.Offers frames c.place k := by
  unfold outlook Configuration.place
  constructor
  · intro h
    split at h
    · exact absurd h TokenSet.not_mem_empty
    · next s hs =>
      split at h
      · next hstop =>
        split at h
        · exact absurd h TokenSet.not_mem_empty
        · next hreturns =>
          rw [hreturns]
          rw [leave] at h
          split at h
          · next hf =>
            rw [TokenSet.mem_singleton.1 h]
            exact .noFrame ⟨s, hs, hstop⟩ hf
          · next f hf =>
            split at h
            · next hout =>
              rw [TokenSet.mem_singleton.1 h]
              exact .outermost ⟨s, hs, hstop⟩ hf hout
            · next hin =>
              split at h
              · next hreturn =>
                rw [TokenSet.mem_singleton.1 h]
                exact .noReturn ⟨s, hs, hstop⟩ hf (Bool.eq_false_iff.2 hin) hreturn
              · exact absurd h TokenSet.not_mem_empty
      · next hgo =>
        obtain ⟨e, he, codes, hcodes, hk⟩ := mem_labels_iff.1 h
        exact .label ⟨s, hs, Bool.eq_false_iff.2 hgo, he⟩ hcodes hk
  · intro h
    generalize hp : (⟨c.state, c.returns, c.base⟩ : Place) = p at h
    cases h with
    | label hedge hcodes hk =>
      obtain ⟨s, hs, hgo, he⟩ := hedge
      cases hp
      simp only [hs, hgo, Bool.false_eq_true, if_false]
      exact mem_labels_iff.2 ⟨_, he, _, hcodes, hk⟩
    | noFrame hx hf =>
      obtain ⟨s, hs, hstop⟩ := hx
      simp only [Place.mk.injEq] at hp
      obtain ⟨rfl, hreturns, rfl⟩ := hp
      simp only [hs, hstop, hreturns, if_true, Network.leave, hf, TokenSet.mem_singleton]
    | outermost hx hf hout =>
      obtain ⟨s, hs, hstop⟩ := hx
      simp only [Place.mk.injEq] at hp
      obtain ⟨rfl, hreturns, rfl⟩ := hp
      simp only [hs, hstop, hreturns, if_true, Network.leave, hf, hout, TokenSet.mem_singleton]
    | noReturn hx hf hin hreturn =>
      obtain ⟨s, hs, hstop⟩ := hx
      simp only [Place.mk.injEq] at hp
      obtain ⟨rfl, hreturns, rfl⟩ := hp
      simp only [hs, hstop, hreturns, if_true, Network.leave, hf, hin, Bool.false_eq_true, if_false,
        hreturn, TokenSet.mem_singleton]

/-- The search takes no step that a walk could not take. -/
theorem Next.step {c d : Configuration} (h : net.Next frames c d) :
    net.Step frames c.place d.place := by
  obtain ⟨state, returns, base, barred⟩ := c
  cases h with
  | free he hfree => exact .free he hfree
  | call he hcall _ => exact .call he hcall
  | ret hs hstop hreturns =>
    cases hreturns
    exact .ret ⟨_, hs, hstop⟩
  | leave hs hstop hreturns hf hin hreturn =>
    cases hreturns
    exact .leave ⟨_, hs, hstop⟩ hf hin hreturn

/-- What the search can come to from a configuration. -/
abbrev Reaches (net : Network) (frames : CallStack) : Configuration → Configuration → Prop :=
  ReflTransGen (net.Next frames)

/-- A code is on offer at a configuration that the search can come to. -/
def Meets (net : Network) (frames : CallStack) (c : Configuration) (k : TokenCode) : Prop :=
  ∃ d, net.Reaches frames c d ∧ net.Offers frames d.place k

theorem Reaches.walk {c d : Configuration} (h : net.Reaches frames c d) :
    net.Walk frames c.place d.place := by
  induction h with
  | refl => exact ReflTransGen.refl
  | tail _ hnext ih => exact ih.tail hnext.step

theorem Next.meets {c d : Configuration} {k : TokenCode} (h : net.Next frames c d)
    (hd : net.Meets frames d k) : net.Meets frames c k := by
  obtain ⟨q, hq, hk⟩ := hd
  exact ⟨q, ReflTransGen.head h hq, hk⟩

theorem Offers.meets {c : Configuration} {k : TokenCode} (h : net.Offers frames c.place k) :
    net.Meets frames c k := ⟨c, ReflTransGen.refl, h⟩

end Network

/-! ## The whole search -/

namespace Survey

theorem contains_record {v : Survey} {c : Configuration} {o : Outlook} {key : List Nat} :
    (v.record c o).seen.contains key = true ↔ key = c.key ∨ v.seen.contains key = true := by
  change (v.seen.insert c.key).contains key = true ↔ _
  rw [Std.TreeSet.contains_insert, Bool.or_eq_true, beq_iff_eq, Std.compare_eq_iff_eq, eq_comm]

/-- A configuration has been seen, or one with its key waits on the agenda. -/
def Knows (v : Survey) (agenda : List Configuration) (c : Configuration) : Prop :=
  v.seen.contains c.key = true ∨ ∃ a ∈ agenda, a.key = c.key

theorem Knows.skip {v : Survey} {c d : Configuration} {agenda : List Configuration}
    (h : v.Knows (c :: agenda) d) (hseen : v.seen.contains c.key = true) : v.Knows agenda d := by
  rcases h with hknown | ⟨a, ha, had⟩
  · exact Or.inl hknown
  · rcases List.mem_cons.1 ha with rfl | ha
    · rw [had] at hseen
      exact Or.inl hseen
    · exact Or.inr ⟨a, ha, had⟩

theorem Knows.look {v : Survey} {c d : Configuration} {agenda : List Configuration} {o : Outlook}
    (h : v.Knows (c :: agenda) d) : (v.record c o).Knows (o.next ++ agenda) d := by
  rcases h with hknown | ⟨a, ha, had⟩
  · exact Or.inl (contains_record.2 (Or.inr hknown))
  · rcases List.mem_cons.1 ha with rfl | ha
    · exact Or.inl (contains_record.2 (Or.inl had.symm))
    · exact Or.inr ⟨a, List.mem_append_right _ ha, had⟩

/-- Each key seen is that of a good configuration that has been looked at: its codes are found, and
those to which the search goes on are known. -/
def Accounted (net : Network) (frames : CallStack) (good : Configuration → Prop) (v : Survey)
    (agenda : List Configuration) : Prop :=
  ∀ key, v.seen.contains key = true → ∃ c, c.key = key ∧ good c ∧
    (∀ k, net.Offers frames c.place k → k ∈ v.look) ∧ ∀ d, net.Next frames c d → v.Knows agenda d

variable {net : Network} {frames : CallStack} {good : Configuration → Prop} {v : Survey}
  {c : Configuration} {agenda : List Configuration}

/-- The first configuration can be taken off the agenda if it has been seen. -/
theorem Accounted.skip (h : v.Accounted net frames good (c :: agenda))
    (hseen : v.seen.contains c.key = true) : v.Accounted net frames good agenda := by
  intro key hkey
  obtain ⟨d, hd, hgood, hcodes, hnext⟩ := h key hkey
  refine ⟨d, hd, hgood, hcodes, ?_⟩
  intro e he
  exact (hnext e he).skip hseen

/-- A look at the first configuration puts those to which the search goes on in its place. -/
theorem Accounted.look (h : v.Accounted net frames good (c :: agenda)) (hc : good c) :
    (v.record c (net.outlook frames c)).Accounted net frames good
      ((net.outlook frames c).next ++ agenda) := by
  intro key hkey
  rcases contains_record.1 hkey with rfl | hkey
  · -- the configuration just looked at
    refine ⟨c, rfl, hc, ?_, ?_⟩
    · intro k hk
      exact TokenSet.mem_union.2 (Or.inr (Network.mem_codes_iff.2 hk))
    · intro e he
      exact Or.inr ⟨e, List.mem_append_left _ (Network.mem_next_iff.2 he), rfl⟩
  · -- one looked at before: its codes stay, and nothing known is lost
    obtain ⟨d, hd, hgood, hcodes, hnext⟩ := h key hkey
    refine ⟨d, hd, hgood, ?_, ?_⟩
    · intro k hk
      exact TokenSet.mem_union.2 (Or.inl (hcodes k hk))
    · intro e he
      exact (hnext e he).look

end Survey

namespace Network

variable {net : Network} {frames : CallStack} {limit : Nat} {v : Survey}
  {agenda : List Configuration}

/-- A search finds no code but those that it can come to. -/
theorem explore_sound {k : TokenCode} (h : k ∈ (net.explore frames limit v agenda).look) :
    k ∈ v.look ∨ ∃ c ∈ agenda, net.Meets frames c k := by
  fun_induction explore net frames limit v agenda with
  | case1 v => exact Or.inl h
  | case2 v c agenda hfull ih =>
    rcases ih h with hk | ⟨d, hd, hk⟩
    · exact Or.inl hk
    · exact Or.inr ⟨d, List.mem_cons_of_mem c hd, hk⟩
  | case3 v c agenda hroom hseen ih =>
    rcases ih h with hk | ⟨d, hd, hk⟩
    · exact Or.inl hk
    · exact Or.inr ⟨d, List.mem_cons_of_mem c hd, hk⟩
  | case4 v c agenda hroom hseen o ih =>
    rcases ih h with hk | ⟨d, hd, hk⟩
    · rcases TokenSet.mem_union.1 hk with hk | hk
      · exact Or.inl hk
      · exact Or.inr ⟨c, List.mem_cons_self, (mem_codes_iff.1 hk).meets⟩
    · rcases List.mem_append.1 hd with hd | hd
      · exact Or.inr ⟨c, List.mem_cons_self, (mem_next_iff.1 hd).meets hk⟩
      · exact Or.inr ⟨d, List.mem_cons_of_mem c hd, hk⟩

/-- What a search has left out as one too many stays left out. -/
theorem refused_explore_ne_none (h : v.refused ≠ none) :
    (net.explore frames limit v agenda).refused ≠ none := by
  fun_induction explore net frames limit v agenda with
  | case1 v => exact h
  | case2 v c agenda hfull ih =>
    apply ih
    simp [Survey.refuse]
  | case3 v c agenda hroom hseen ih => exact ih h
  | case4 v c agenda hroom hseen o ih => exact ih h

/-- A search that leaves none out ends with an account of all that it has seen, and sees all that was
known at its beginning. -/
theorem explore_accounted {good : Configuration → Prop}
    (hgood : ∀ c d, good c → net.Next frames c d → good d) (hagenda : ∀ c ∈ agenda, good c)
    (hv : v.Accounted net frames good agenda)
    (hdone : (net.explore frames limit v agenda).refused = none) :
    (net.explore frames limit v agenda).Accounted net frames good [] ∧
      ∀ c, v.Knows agenda c → (net.explore frames limit v agenda).seen.contains c.key = true := by
  fun_induction explore net frames limit v agenda with
  | case1 v =>
    refine ⟨hv, ?_⟩
    intro c hc
    rcases hc with hc | ⟨a, ha, -⟩
    · exact hc
    · exact absurd ha List.not_mem_nil
  | case2 v c agenda hfull ih =>
    -- here one is left out
    refine absurd hdone (refused_explore_ne_none ?_)
    simp [Survey.refuse]
  | case3 v c agenda hroom hseen ih =>
    obtain ⟨haccount, hknown⟩ :=
      ih (fun d hd => hagenda d (List.mem_cons_of_mem c hd)) (hv.skip hseen) hdone
    refine ⟨haccount, ?_⟩
    intro d hd
    exact hknown d (hd.skip hseen)
  | case4 v c agenda hroom hseen o ih =>
    have hc := hagenda c List.mem_cons_self
    have hnext : ∀ d ∈ (net.outlook frames c).next ++ agenda, good d := by
      intro d hd
      rcases List.mem_append.1 hd with hd | hd
      · exact hgood c d hc (mem_next_iff.1 hd)
      · exact hagenda d (List.mem_cons_of_mem c hd)
    obtain ⟨haccount, hknown⟩ := ih hnext (hv.look hc) hdone
    refine ⟨haccount, ?_⟩
    intro d hd
    exact hknown d hd.look

/-- A search that leaves none out finds all codes that it can come to, if good configurations with
one key are the same. -/
theorem explore_complete {good : Configuration → Prop}
    (hgood : ∀ c d, good c → net.Next frames c d → good d)
    (hkey : ∀ c d, good c → good d → c.key = d.key → c = d) {c : Configuration} (hc : good c)
    (hdone : (net.explore frames limit {} [c]).refused = none) {k : TokenCode}
    (h : net.Meets frames c k) : k ∈ (net.explore frames limit {} [c]).look := by
  have hstart : ({} : Survey).Accounted net frames good [c] := by
    intro key hempty
    simp at hempty
  obtain ⟨haccount, hknown⟩ := explore_accounted hgood (by simpa using hc) hstart hdone
  obtain ⟨d, hreach, hk⟩ := h
  -- all that is reached is good and is seen: by induction on the path, for the account of a
  -- configuration is that of its key, and good configurations with one key are the same
  have hseen : good d ∧ (net.explore frames limit {} [c]).seen.contains d.key = true := by
    clear hk
    induction hreach with
    | refl => exact ⟨hc, hknown c (Or.inr ⟨c, List.mem_singleton_self c, rfl⟩)⟩
    | @tail d e _ hnext ih =>
      obtain ⟨hd, hdseen⟩ := ih
      obtain ⟨d', hd', hgood', -, hnext'⟩ := haccount d.key hdseen
      cases hkey d' d hgood' hd hd'
      refine ⟨hgood d e hd hnext, ?_⟩
      rcases hnext' e hnext with he | ⟨a, ha, -⟩
      · exact he
      · exact absurd ha List.not_mem_nil
  obtain ⟨hd, hdseen⟩ := hseen
  obtain ⟨d', hd', hgood', hcodes, -⟩ := haccount d.key hdseen
  cases hkey d' d hgood' hd hd'
  exact hcodes k hk

end Network

end SyntaxRecovery
