import Compliance.Proofs.Liveness
import Mathlib.Data.Nat.Find

/-!
The depths at which policies are collected. The levels are formed while the layers below are still
unknown, but a policy sees nothing from below its own depth: what it reads at its level is what it
reads in the complete index, so the levels are those of the shortest chains of references.
-/

namespace Compliance

@[simp] theorem Policy.layer_owner (p : Policy) (asset : PredicateSet) (now : Timestamp) (depth : Nat) :
    (p.layer asset now depth).owner = p.mrn := rfl

@[simp] theorem Policy.layer_depth (p : Policy) (asset : PredicateSet) (now : Timestamp) (depth : Nat) :
    (p.layer asset now depth).depth = depth := rfl

namespace Overrides

variable {b : Bundle} {asset : PredicateSet} {now : Timestamp} {assigned : List Mrn} {pool level : List Policy}
  {depth : Nat} {o : Overrides} {p : Policy} {m : Mrn}

/-- The states that the collection goes through: policies not yet reached, those of the level, its
depth, and the layers above it. -/
inductive Stage (b : Bundle) (asset : PredicateSet) (now : Timestamp) (assigned : List Mrn) :
    List Policy → List Policy → Nat → Overrides → Prop
  | start : Stage b asset now assigned (b.policies.entries.filter fun p => !assigned.contains p.mrn)
    (b.policies.entries.filter fun p => assigned.contains p.mrn) 0 {}
  | next {pool level : List Policy} {depth : Nat} {o : Overrides} : Stage b asset now assigned pool level depth o →
    (o.addLevel asset now level depth).reached asset now level pool ≠ [] →
      Stage b asset now assigned ((o.addLevel asset now level depth).unreached asset now level pool)
        ((o.addLevel asset now level depth).reached asset now level pool) (depth + 1)
        (o.addLevel asset now level depth)

theorem mem_addLevel {l : Layer} : l ∈ (o.addLevel asset now level depth).layers ↔
    l ∈ o.layers ∨ ∃ p ∈ level, p.layer asset now depth = l := by
  simp [addLevel]

theorem grow_last (h : (o.addLevel asset now level depth).reached asset now level pool = []) :
    grow asset now pool level depth o = o.addLevel asset now level depth := by
  rw [grow]
  exact dif_pos h

theorem grow_next (h : (o.addLevel asset now level depth).reached asset now level pool ≠ []) :
    grow asset now pool level depth o =
      grow asset now ((o.addLevel asset now level depth).unreached asset now level pool)
        ((o.addLevel asset now level depth).reached asset now level pool) (depth + 1)
        (o.addLevel asset now level depth) := by
  rw [grow]
  exact dif_neg h

theorem grow_layers (asset : PredicateSet) (now : Timestamp) (pool level : List Policy) (depth : Nat) (o : Overrides) :
    ∃ later, (grow asset now pool level depth o).layers = (o.addLevel asset now level depth).layers ++ later ∧
      ∀ l ∈ later, depth < l.depth ∧ ∃ p ∈ pool, p.mrn = l.owner := by
  by_cases hr : (o.addLevel asset now level depth).reached asset now level pool = []
  · rw [grow_last hr]
    exact ⟨[], by simp, by simp⟩
  · have hlt := length_unreached_lt _ hr
    obtain ⟨later, heq, hlater⟩ := grow_layers asset now ((o.addLevel asset now level depth).unreached asset now level pool)
      ((o.addLevel asset now level depth).reached asset now level pool) (depth + 1) (o.addLevel asset now level depth)
    rw [grow_next hr, heq]
    refine ⟨_, List.append_assoc .., ?_⟩
    intro l hl
    rcases List.mem_append.mp hl with hl | hl
    · obtain ⟨p, hp, rfl⟩ := List.mem_map.mp hl
      exact ⟨Nat.lt_succ_self depth, p, (List.mem_filter.mp hp).1, rfl⟩
    · obtain ⟨hd, p, hp, ho⟩ := hlater l hl
      exact ⟨by omega, p, (List.mem_filter.mp hp).1, ho⟩
termination_by pool.length

theorem action_append {later : List Layer} {referrer : Mrn} (hd : o.depth? referrer = some depth)
    (hl : ∀ l ∈ later, depth < l.depth ∧ l.owner ≠ referrer) (m : Mrn) :
    (⟨o.layers ++ later⟩ : Overrides).action referrer m = o.action referrer m := by
  have hd' : (⟨o.layers ++ later⟩ : Overrides).depth? referrer = some depth := by
    obtain ⟨l, hf, hl⟩ := Option.map_eq_some_iff.mp hd
    simp [depth?, List.find?_append, hf, hl]
  have hsees : (⟨o.layers ++ later⟩ : Overrides).sees referrer = o.sees referrer := by
    funext l
    simp only [sees, hd, hd']
  have hlater : later.filter (o.sees referrer) = [] := by
    apply List.filter_eq_nil_iff.mpr
    intro l hm
    obtain ⟨hlt, hne⟩ := hl l hm
    have hn : ¬l.depth < depth := by omega
    simp [sees, hd, hn, hne]
  simp only [action, said, hsees, List.filter_append, hlater, List.append_nil]

namespace Stage

theorem collect_eq (h : Stage b asset now assigned pool level depth o) :
    collect b asset now assigned = grow asset now pool level depth o := by
  induction h with
  | start => rfl
  | next _ hr ih => rw [ih, grow_next hr]

theorem exists_last {pool level : List Policy} {depth : Nat} {o : Overrides}
    (h : Stage b asset now assigned pool level depth o) : ∃ pool level depth o,
      Stage b asset now assigned pool level depth o ∧
        (o.addLevel asset now level depth).reached asset now level pool = [] := by
  by_cases hr : (o.addLevel asset now level depth).reached asset now level pool = []
  · exact ⟨pool, level, depth, o, h, hr⟩
  · have hlt := length_unreached_lt _ hr
    exact exists_last (.next h hr)
termination_by pool.length

structure Parted (b : Bundle) (pool level : List Policy) (depth : Nat) (o : Overrides) : Prop where
  below : pool.Sublist b.policies.entries
  here : level.Sublist b.policies.entries
  split : ∀ p ∈ pool, p ∉ level
  above : ∀ l ∈ o.layers, l.depth < depth ∧ ∀ p, p ∈ pool ∨ p ∈ level → p.mrn ≠ l.owner
  once : (o.layers.map (·.owner)).Nodup

theorem nodup_mrns {l : List Policy} (h : l.Sublist b.policies.entries) : (l.map (·.mrn)).Nodup :=
  b.policies.keys_nodup.sublist (h.map Policy.mrn)

theorem Parted.mrn_ne (h : Parted b pool level depth o) {q : Policy} (hp : p ∈ pool) (hq : q ∈ level) :
    p.mrn ≠ q.mrn := by
  intro he
  have hp' := Keyed.find?_of_mem (h.below.subset hp)
  have hq' := Keyed.find?_of_mem (h.here.subset hq)
  rw [he, hq'] at hp'
  rw [Option.some.inj hp'] at hq
  exact h.split p hp hq

theorem Parted.once_addLevel (h : Parted b pool level depth o) :
    ((o.addLevel asset now level depth).layers.map (·.owner)).Nodup := by
  have hmap : (level.map (·.layer asset now depth)).map (·.owner) = level.map (·.mrn) := by
    rw [List.map_map]
    rfl
  rw [addLevel, List.map_append, hmap]
  refine List.nodup_append.mpr ⟨h.once, nodup_mrns h.here, ?_⟩
  intro x hx y hy he
  obtain ⟨l, hl, rfl⟩ := List.mem_map.mp hx
  obtain ⟨p, hp, rfl⟩ := List.mem_map.mp hy
  exact (h.above l hl).2 p (.inr hp) he.symm

theorem parted (h : Stage b asset now assigned pool level depth o) : Parted b pool level depth o := by
  have split : ∀ {l : List Policy} {f : Policy → Bool}, ∀ p ∈ l.filter (!f ·), p ∉ l.filter f := by
    intro l f p hp hq
    simpa [(List.mem_filter.mp hq).2] using (List.mem_filter.mp hp).2
  induction h with
  | start => exact ⟨List.filter_sublist, List.filter_sublist, split, by simp, by simp⟩
  | @next pool level depth o h hr ih =>
    refine ⟨List.filter_sublist.trans ih.below, List.filter_sublist.trans ih.below, split, ?_, ih.once_addLevel⟩
    have hpool : ∀ q, q ∈ (o.addLevel asset now level depth).unreached asset now level pool ∨
        q ∈ (o.addLevel asset now level depth).reached asset now level pool → q ∈ pool := by
      rintro q (hq | hq) <;> exact (List.mem_filter.mp hq).1
    intro l hl
    rcases mem_addLevel.mp hl with hl | ⟨p, hp, rfl⟩
    · obtain ⟨hd, ho⟩ := ih.above l hl
      exact ⟨by omega, fun q hq => ho q (.inl (hpool q hq))⟩
    · exact ⟨Nat.lt_succ_self depth, fun q hq => ih.mrn_ne (hpool q hq) hp⟩

theorem action_eq (h : Stage b asset now assigned pool level depth o) (hp : p ∈ level) (m : Mrn) :
    (o.addLevel asset now level depth).action p.mrn m = (collect b asset now assigned).action p.mrn m := by
  have hpart := h.parted
  have hd : (o.addLevel asset now level depth).depth? p.mrn = some depth := by
    have hn : o.layers.find? (·.owner == p.mrn) = none := by
      apply List.find?_eq_none.mpr
      intro l hl
      simpa using ((hpart.above l hl).2 p (.inr hp)).symm
    obtain ⟨l, hl⟩ : ∃ l, (level.map (·.layer asset now depth)).find? (·.owner == p.mrn) = some l :=
      Option.isSome_iff_exists.mp (List.find?_isSome.mpr ⟨_, List.mem_map_of_mem hp, by simp⟩)
    obtain ⟨q, -, rfl⟩ := List.mem_map.mp (List.mem_of_find?_eq_some hl)
    simp only [depth?, addLevel, List.find?_append, hn, hl, Option.none_or, Option.map_some, Policy.layer_depth]
  -- layers that are still to come are deeper and not its own: it sees none of them
  obtain ⟨later, heq, hlater⟩ := grow_layers asset now pool level depth o
  have hl : ∀ l ∈ later, depth < l.depth ∧ l.owner ≠ p.mrn := by
    intro l hl
    obtain ⟨hlt, q, hq, ho⟩ := hlater l hl
    rw [← ho]
    exact ⟨hlt, hpart.mrn_ne hq hp⟩
  rw [h.collect_eq, ← action_append hd hl, ← heq]

end Stage

end Overrides

namespace Setting

def Collected (s : Setting) (roots : List Mrn) : Prop := s.overrides = .collect s.bundle s.asset s.now roots

inductive Chain (s : Setting) (roots : List Mrn) : Nat → Policy → Prop
  | root {m : Mrn} {p : Policy} : m ∈ roots → s.bundle.policies.find? m = some p → Chain s roots 0 p
  | included {n : Nat} {p q : Policy} : Chain s roots n p → s.Includes p q → Chain s roots (n + 1) q

def AtDepth (s : Setting) (roots : List Mrn) (n : Nat) (p : Policy) : Prop :=
  s.Chain roots n p ∧ ∀ k, s.Chain roots k p → n ≤ k

variable {s : Setting} {roots : List Mrn} {pool level : List Policy} {depth n k : Nat} {o : Overrides} {p q : Policy}

theorem walked_iff_exists_chain : s.Walked roots p ↔ ∃ n, s.Chain roots n p := by
  constructor
  · intro h
    induction h with
    | root hm hp => exact ⟨0, .root hm hp⟩
    | included _ hi ih =>
      obtain ⟨n, hn⟩ := ih
      exact ⟨n + 1, .included hn hi⟩
  · rintro ⟨n, h⟩
    induction h with
    | root hm hp => exact .root hm hp
    | included _ hi ih => exact .included ih hi

theorem Chain.mem (h : s.Chain roots n p) : p ∈ s.bundle.policies.entries :=
  Keyed.mem_of_find? (walked_iff_exists_chain.mpr ⟨n, h⟩).declared

theorem Chain.exists_atDepth (h : s.Chain roots n p) : ∃ k ≤ n, s.AtDepth roots k p := by
  classical
  have hex : ∃ k, s.Chain roots k p := ⟨n, h⟩
  exact ⟨Nat.find hex, Nat.find_min' hex h, Nat.find_spec hex, fun k hk => Nat.find_min' hex hk⟩

theorem AtDepth.exists_above (h : s.AtDepth roots (n + 1) q) : ∃ p, s.AtDepth roots n p ∧ s.Includes p q := by
  obtain ⟨hc, hmin⟩ := h
  cases hc with
  | included hp hi =>
    refine ⟨_, ⟨hp, fun k hk => ?_⟩, hi⟩
    have := hmin (k + 1) (.included hk hi)
    omega

theorem atDepth_zero_iff : s.AtDepth roots 0 p ↔ p ∈ s.bundle.policies.entries ∧ p.mrn ∈ roots := by
  constructor
  · rintro ⟨hc, -⟩
    have hmem := hc.mem
    cases hc with
    | root hm hp => exact ⟨hmem, Keyed.key_of_find? hp ▸ hm⟩
  · rintro ⟨hp, hm⟩
    exact ⟨.root hm (Keyed.find?_of_mem hp), fun k _ => Nat.zero_le k⟩

theorem leads_iff (hs : s.Collected roots) (h : Overrides.Stage s.bundle s.asset s.now roots pool level depth o)
    (hp : p ∈ level) (hq : q ∈ s.bundle.policies.entries) :
    (o.addLevel s.asset s.now level depth).leads s.asset s.now p q.mrn = true ↔ s.Includes p q := by
  have ha : ∀ m a, (o.addLevel s.asset s.now level depth).effective p.mrn m a = s.overrides.effective p.mrn m a := by
    intro m a
    rw [Overrides.effective, h.action_eq hp, ← hs]
    rfl
  simp only [Overrides.leads, ha, List.any_eq_true, Bool.and_eq_true, beq_iff_eq, bne_iff_ne, Includes]
  constructor
  · rintro ⟨g, hg, r, hr, hm, hd⟩
    rw [← hm] at hd
    exact ⟨g, hg, r, hr, hd, hm ▸ Keyed.find?_of_mem hq⟩
  · rintro ⟨g, hg, r, hr, hd, hm⟩
    have hk := Keyed.key_of_find? hm
    rw [← hk] at hd
    exact ⟨g, hg, r, hr, hk.symm, hd⟩

structure Levelled (s : Setting) (roots : List Mrn) (pool level : List Policy) (depth : Nat) (o : Overrides) : Prop where
  level : ∀ p, p ∈ level ↔ s.AtDepth roots depth p
  pool : ∀ p, p ∈ pool ↔ p ∈ s.bundle.policies.entries ∧ ∀ n ≤ depth, ¬s.Chain roots n p
  layers : ∀ l, l ∈ o.layers ↔ ∃ n < depth, ∃ p, s.AtDepth roots n p ∧ p.layer s.asset s.now n = l

theorem levelled_start (s : Setting) (roots : List Mrn) :
    s.Levelled roots (s.bundle.policies.entries.filter fun p => !roots.contains p.mrn)
      (s.bundle.policies.entries.filter fun p => roots.contains p.mrn) 0 {} where
  level p := by simp [atDepth_zero_iff]
  pool p := by
    rw [List.mem_filter]
    apply and_congr_right
    intro hp
    constructor
    · intro hn k hk hc
      obtain rfl : k = 0 := by omega
      have := atDepth_zero_iff.mp ⟨hc, fun k _ => Nat.zero_le k⟩
      simp [this.2] at hn
    · intro hn
      simp only [Bool.not_eq_true', List.contains_eq_mem, decide_eq_false_iff_not]
      exact fun hm => hn 0 (Nat.le_refl 0) (atDepth_zero_iff.mpr ⟨hp, hm⟩).1
  layers := by simp

section

variable (hs : s.Collected roots) (h : Overrides.Stage s.bundle s.asset s.now roots pool level depth o)
include hs h

theorem Levelled.mem_reached (hl : s.Levelled roots pool level depth o) :
    q ∈ (o.addLevel s.asset s.now level depth).reached s.asset s.now level pool ↔ s.AtDepth roots (depth + 1) q := by
  rw [Overrides.reached, List.mem_filter, List.any_eq_true]
  constructor
  · rintro ⟨hq, p, hp, hlead⟩
    obtain ⟨hmem, hnew⟩ := (hl.pool q).mp hq
    refine ⟨.included ((hl.level p).mp hp).1 ((leads_iff hs h hp hmem).mp hlead), fun k hk => ?_⟩
    -- a shorter chain would have brought it to a level above
    by_contra hlt
    exact hnew k (by omega) hk
  · intro hq
    obtain ⟨p, hp, hi⟩ := hq.exists_above
    refine ⟨(hl.pool q).mpr ⟨hq.1.mem, fun n hn hc => ?_⟩, p, (hl.level p).mpr hp,
      (leads_iff hs h ((hl.level p).mpr hp) hq.1.mem).mpr hi⟩
    have := hq.2 n hc
    omega

theorem Levelled.next (hl : s.Levelled roots pool level depth o) :
    s.Levelled roots ((o.addLevel s.asset s.now level depth).unreached s.asset s.now level pool)
      ((o.addLevel s.asset s.now level depth).reached s.asset s.now level pool) (depth + 1)
      (o.addLevel s.asset s.now level depth) where
  level _ := hl.mem_reached hs h
  pool q := by
    have hun : q ∈ (o.addLevel s.asset s.now level depth).unreached s.asset s.now level pool ↔
        q ∈ pool ∧ q ∉ (o.addLevel s.asset s.now level depth).reached s.asset s.now level pool := by
      simp only [Overrides.unreached, Overrides.reached, List.mem_filter]
      grind
    rw [hun, hl.mem_reached hs h, hl.pool]
    constructor
    · rintro ⟨⟨hq, hnew⟩, hn⟩
      refine ⟨hq, fun k hk hc => ?_⟩
      -- a chain may be longer than it has to be, so the least depth decides
      obtain ⟨j, hj, ha⟩ := hc.exists_atDepth
      by_cases hjd : j ≤ depth
      · exact hnew j hjd ha.1
      · obtain rfl : j = depth + 1 := by omega
        exact hn ha
    · rintro ⟨hq, hnew⟩
      exact ⟨⟨hq, fun k hk => hnew k (by omega)⟩, fun ha => hnew (depth + 1) (Nat.le_refl _) ha.1⟩
  layers l := by
    rw [Overrides.mem_addLevel, hl.layers]
    constructor
    · rintro (⟨n, hn, p, hp, rfl⟩ | ⟨p, hp, rfl⟩)
      · exact ⟨n, by omega, p, hp, rfl⟩
      · exact ⟨depth, by omega, p, (hl.level p).mp hp, rfl⟩
    · rintro ⟨n, hn, p, hp, rfl⟩
      rcases Nat.lt_succ_iff_lt_or_eq.mp hn with hn | rfl
      · exact .inl ⟨n, hn, p, hp, rfl⟩
      · exact .inr ⟨p, (hl.level p).mpr hp, rfl⟩

theorem Levelled.depth_le (hl : s.Levelled roots pool level depth o)
    (hr : (o.addLevel s.asset s.now level depth).reached s.asset s.now level pool = []) (hp : s.AtDepth roots n p) :
    n ≤ depth := by
  induction n generalizing p with
  | zero => exact Nat.zero_le depth
  | succ n ih =>
    obtain ⟨p', hp', -⟩ := hp.exists_above
    have hn := ih hp'
    by_contra hlt
    obtain rfl : n = depth := by omega
    have hmem := (hl.mem_reached hs h).mpr hp
    rw [hr] at hmem
    exact List.not_mem_nil hmem

end

theorem levelled (hs : s.Collected roots) (h : Overrides.Stage s.bundle s.asset s.now roots pool level depth o) :
    s.Levelled roots pool level depth o := by
  induction h with
  | start => exact levelled_start s roots
  | next h _ ih => exact ih.next hs h

theorem mem_layers_iff (hs : s.Collected roots) (l : Layer) :
    l ∈ s.overrides.layers ↔ ∃ n p, s.AtDepth roots n p ∧ p.layer s.asset s.now n = l := by
  obtain ⟨pool, level, depth, o, h, hr⟩ :=
    Overrides.Stage.exists_last (.start : Overrides.Stage s.bundle s.asset s.now roots _ _ _ _)
  have hl := levelled hs h
  rw [hs, h.collect_eq, Overrides.grow_last hr, Overrides.mem_addLevel, hl.layers]
  constructor
  · rintro (⟨n, -, p, hp, rfl⟩ | ⟨p, hp, rfl⟩)
    · exact ⟨n, p, hp, rfl⟩
    · exact ⟨depth, p, (hl.level p).mp hp, rfl⟩
  · rintro ⟨n, p, hp, rfl⟩
    rcases Nat.lt_or_eq_of_le (hl.depth_le hs h hr hp) with hn | rfl
    · exact .inl ⟨n, hn, p, hp, rfl⟩
    · exact .inr ⟨p, (hl.level p).mpr hp, rfl⟩

theorem owners_nodup (hs : s.Collected roots) : (s.overrides.layers.map (·.owner)).Nodup := by
  obtain ⟨pool, level, depth, o, h, hr⟩ :=
    Overrides.Stage.exists_last (.start : Overrides.Stage s.bundle s.asset s.now roots _ _ _ _)
  rw [hs, h.collect_eq, Overrides.grow_last hr]
  exact h.parted.once_addLevel

theorem depth?_eq_some_iff (hs : s.Collected roots) (m : Mrn) :
    s.overrides.depth? m = some n ↔ ∃ p, p.mrn = m ∧ s.AtDepth roots n p := by
  rw [Overrides.depth?, Option.map_eq_some_iff]
  constructor
  · rintro ⟨l, hl, rfl⟩
    obtain ⟨k, p, hp, rfl⟩ := (mem_layers_iff hs l).mp (List.mem_of_find?_eq_some hl)
    exact ⟨p, by simpa using List.find?_some hl, hp⟩
  · rintro ⟨p, rfl, hp⟩
    have hmem := (mem_layers_iff hs _).mpr ⟨n, p, hp, rfl⟩
    obtain ⟨l, hl⟩ : ∃ l, s.overrides.layers.find? (·.owner == p.mrn) = some l :=
      Option.isSome_iff_exists.mp (List.find?_isSome.mpr ⟨_, hmem, by simp⟩)
    have ho : l.owner = p.mrn := by simpa using List.find?_some hl
    have he := List.inj_on_of_nodup_map (owners_nodup hs) (List.mem_of_find?_eq_some hl) hmem ho
    exact ⟨l, hl, by rw [he]; rfl⟩

theorem mem_owners_iff (hs : s.Collected roots) (m : Mrn) :
    m ∈ s.overrides.layers.map (·.owner) ↔ ∃ p, p.mrn = m ∧ s.Walked roots p := by
  rw [List.mem_map]
  constructor
  · rintro ⟨l, hl, rfl⟩
    obtain ⟨n, p, hp, rfl⟩ := (mem_layers_iff hs l).mp hl
    exact ⟨p, rfl, walked_iff_exists_chain.mpr ⟨n, hp.1⟩⟩
  · rintro ⟨p, rfl, hp⟩
    obtain ⟨n, hc⟩ := walked_iff_exists_chain.mp hp
    obtain ⟨k, -, hk⟩ := hc.exists_atDepth
    exact ⟨_, (mem_layers_iff hs _).mpr ⟨k, p, hk, rfl⟩, rfl⟩

end Setting

theorem Bundle.setting_collected (b : Bundle) (r : Request) : (b.setting r).Collected r.target.assigned := rfl

end Compliance
