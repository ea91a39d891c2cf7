import Compliance.Proofs.Precedence

namespace Compliance

namespace Overrides

structure Queue where
  met : List Mrn := []
  next : List Policy := []

namespace Queue

def push (q : Queue) (p : Policy) : Queue where
  met := p.mrn :: q.met
  next := q.next ++ [p]

def enter (b : Bundle) (q : Queue) (m : Mrn) : Queue :=
  if m ∈ q.met then q
  else match b.policies.find? m with
    | none => q
    | some p => q.push p

def remaining (b : Bundle) (q : Queue) : Nat := unvisited Policy.mrn b.policies.entries q.met + q.next.length

variable {b : Bundle} {q : Queue} {met names : List Mrn} {m : Mrn} {p : Policy}

theorem enter_of_mem (h : m ∈ q.met) : q.enter b m = q := if_pos h

theorem enter_of_find?_eq_none (h : b.policies.find? m = none) : q.enter b m = q := by
  simp [enter, h]

theorem enter_of_find?_eq_some (hm : m ∉ q.met) (h : b.policies.find? m = some p) : q.enter b m = q.push p := by
  simp [enter, hm, h]

theorem remaining_push_le (hp : p ∈ b.policies.entries) (h : p.mrn ∉ q.met) : (q.push p).remaining b ≤ q.remaining b := by
  have hlt := unvisited_cons_lt hp h
  simp only [remaining, push, List.length_append, List.length_singleton]
  omega

theorem remaining_enter_le (b : Bundle) (q : Queue) (m : Mrn) : (q.enter b m).remaining b ≤ q.remaining b := by
  by_cases hm : m ∈ q.met
  · rw [enter_of_mem hm]
  · cases hp : b.policies.find? m with
    | none => rw [enter_of_find?_eq_none hp]
    | some p =>
      rw [enter_of_find?_eq_some hm hp]
      exact remaining_push_le (Keyed.mem_of_find? hp) (Keyed.key_of_find? hp ▸ hm)

theorem remaining_foldl_enter_le (b : Bundle) (names : List Mrn) (q : Queue) :
    (names.foldl (enter b) q).remaining b ≤ q.remaining b := by
  induction names generalizing q with
  | nil => exact Nat.le_refl _
  | cons m rest ih => exact Nat.le_trans (ih _) (remaining_enter_le b q m)

structure Holds (b : Bundle) (met names : List Mrn) (q : Queue) : Prop where
  once : (q.next.map (·.mrn)).Nodup
  next : ∀ p, p ∈ q.next ↔ p ∈ b.policies.entries ∧ p.mrn ∉ met ∧ p.mrn ∈ names
  met : ∀ m, m ∈ q.met ↔ m ∈ met ∨ ∃ p ∈ q.next, p.mrn = m

namespace Holds

theorem start (met : List Mrn) : Holds b met [] { met } where
  once := by simp
  next := by simp
  met := by simp

theorem skip (h : Holds b met names q) (hm : ∀ p ∈ b.policies.entries, p.mrn ∉ met → p.mrn = m → p.mrn ∈ names) :
    Holds b met (names ++ [m]) q where
  once := h.once
  next := fun p => by
    rw [h.next, List.mem_append, List.mem_singleton]
    exact and_congr_right fun hp => and_congr_right fun hnew => ⟨.inl, fun hname => hname.elim id (hm p hp hnew)⟩
  met := h.met

theorem push (h : Holds b met names q) (hp : p ∈ b.policies.entries) (hnew : p.mrn ∉ q.met) :
    Holds b met (names ++ [p.mrn]) (q.push p) where
  once := by
    rw [Queue.push, List.map_append, List.nodup_append]
    refine ⟨h.once, by simp, fun m hm m' hm' he => ?_⟩
    obtain rfl : m' = p.mrn := by simpa using hm'
    obtain ⟨p', hp', hmrn⟩ := List.mem_map.mp hm
    exact hnew ((h.met _).mpr (.inr ⟨p', hp', hmrn.trans he⟩))
  next := fun p' => by
    have hmet : p.mrn ∉ met := fun hm => hnew ((h.met _).mpr (.inl hm))
    rw [Queue.push, List.mem_append, List.mem_singleton, h.next, List.mem_append, List.mem_singleton]
    constructor
    · rintro (⟨hp', hm, hname⟩ | rfl)
      · exact ⟨hp', hm, .inl hname⟩
      · exact ⟨hp, hmet, .inr rfl⟩
    · rintro ⟨hp', hm, hname | he⟩
      · exact .inl ⟨hp', hm, hname⟩
      · exact .inr (List.inj_on_of_nodup_map b.policies.keys_nodup hp' hp he)
  met := fun m => by
    simp only [Queue.push, List.mem_cons, h.met, List.mem_append, List.not_mem_nil, or_false, or_and_right, exists_or,
      exists_eq_left, eq_comm (a := m)]
    rw [or_comm, or_assoc]

theorem enter (h : Holds b met names q) (m : Mrn) : Holds b met (names ++ [m]) (q.enter b m) := by
  by_cases hm : m ∈ q.met
  · rw [enter_of_mem hm]
    -- met in this search, so a name before it has queued the policy
    refine h.skip fun p _ hnew he => ?_
    obtain ⟨p', hp', he'⟩ := ((h.met m).mp hm).resolve_left (he ▸ hnew)
    exact he.trans he'.symm ▸ ((h.next p').mp hp').2.2
  · cases hp : b.policies.find? m with
    | none =>
      rw [enter_of_find?_eq_none hp]
      refine h.skip fun p hmem _ he => ?_
      rw [← he, Keyed.find?_of_mem hmem] at hp
      cases hp
    | some p =>
      rw [enter_of_find?_eq_some hm hp]
      obtain rfl := Keyed.key_of_find? hp
      exact h.push (Keyed.mem_of_find? hp) hm

theorem foldl_enter (b : Bundle) (met names : List Mrn) : Holds b met names (names.foldl (Queue.enter b) { met }) := by
  induction names using List.reverseRecOn with
  | nil => exact start met
  | append_singleton names m ih =>
    rw [List.foldl_append]
    exact ih.enter m

end Holds

end Queue

def followed (o : Overrides) (asset : PredicateSet) (now : Timestamp) (level : List Policy) : List Mrn :=
  level.flatMap fun p => (p.contentGroups asset now).flatMap fun g =>
    (g.policies.filter fun r => o.effective p.mrn r.mrn r.action != .deactivate).map (·.mrn)

def placeLevel (o : Overrides) (asset : PredicateSet) (now : Timestamp) (level : List Policy) (depth : Nat) : Overrides :=
  ⟨(level.map (·.layer asset now depth)).foldl Layer.place o.layers⟩

def search (b : Bundle) (asset : PredicateSet) (now : Timestamp) (depth : Nat) (q : Queue) (o : Overrides) : Overrides :=
  if _h : q.next = [] then o
  else
    search b asset now (depth + 1)
      (((o.placeLevel asset now q.next depth).followed asset now q.next).foldl (Queue.enter b) { met := q.met })
      (o.placeLevel asset now q.next depth)
termination_by q.remaining b
decreasing_by
  have hle := Queue.remaining_foldl_enter_le b ((o.placeLevel asset now q.next depth).followed asset now q.next)
    { met := q.met }
  have hpos : 0 < q.next.length := List.length_pos_iff.mpr _h
  simp only [Queue.remaining, List.length_nil] at hle ⊢
  omega

def discover (b : Bundle) (asset : PredicateSet) (now : Timestamp) (roots : List Mrn) : Overrides :=
  search b asset now 0 (roots.foldl (Queue.enter b) {}) {}

variable {b : Bundle} {asset : PredicateSet} {now : Timestamp} {roots : List Mrn} {level queued pool : List Policy}
  {depth : Nat} {q : Queue} {o : Overrides} {m : Mrn}

theorem mem_followed : m ∈ o.followed asset now level ↔ level.any (fun p => o.leads asset now p m) = true := by
  simp only [followed, leads, List.mem_flatMap, List.mem_map, List.mem_filter, List.any_eq_true, Bool.and_eq_true,
    beq_iff_eq]
  constructor
  · rintro ⟨p, hp, g, hg, r, ⟨hr, ha⟩, rfl⟩
    exact ⟨p, hp, g, hg, r, hr, rfl, ha⟩
  · rintro ⟨p, hp, g, hg, r, hr, rfl, ha⟩
    exact ⟨p, hp, g, hg, r, ⟨hr, ha⟩, rfl⟩

structure Queue.Matches (b : Bundle) (pool level : List Policy) (q : Queue) : Prop where
  next : q.next.Perm level
  met : ∀ p ∈ b.policies.entries, p.mrn ∈ q.met ↔ p ∉ pool

theorem Queue.Holds.matches {met names : List Mrn} {f : Policy → Bool} (h : Queue.Holds b met names q)
    (hpool : pool.Sublist b.policies.entries) (hmet : ∀ p ∈ b.policies.entries, p.mrn ∈ met ↔ p ∉ pool)
    (hnames : ∀ p, f p = true ↔ p.mrn ∈ names) :
    q.Matches b (pool.filter fun p => !f p) (pool.filter f) := by
  have hnext : ∀ p, p ∈ q.next ↔ p ∈ pool.filter f := by
    intro p
    rw [h.next, List.mem_filter, hnames, ← and_assoc]
    refine and_congr_left fun _ => ⟨fun ⟨hp, hnew⟩ => ?_, fun hp => ⟨hpool.subset hp, fun hm => ?_⟩⟩
    · by_contra hn
      exact hnew ((hmet p hp).mpr hn)
    · exact (hmet p (hpool.subset hp)).mp hm hp
  refine ⟨?_, fun p hp => ?_⟩
  · have hnodup : (pool.filter f).Nodup :=
      List.Nodup.of_map _ (Stage.nodup_mrns (List.filter_sublist.trans hpool))
    exact (List.perm_ext_iff_of_nodup (List.Nodup.of_map _ h.once) hnodup).mpr hnext
  · have hsame : (∃ p' ∈ q.next, p'.mrn = p.mrn) ↔ p ∈ q.next := by
      constructor
      · rintro ⟨p', hp', he⟩
        exact List.inj_on_of_nodup_map b.policies.keys_nodup ((h.next p').mp hp').1 hp he ▸ hp'
      · exact fun hp => ⟨p, hp, rfl⟩
    rw [h.met, hmet p hp, hsame, hnext, List.mem_filter, List.mem_filter]
    by_cases hf : f p = true <;> simp [hf, em']

theorem Stage.placeLevel_eq (h : Stage b asset now roots pool level depth o) (hq : queued.Perm level) :
    o.placeLevel asset now queued depth = o.addLevel asset now level depth := by
  have harriving : (queued.map (·.layer asset now depth) ++ o.layers).Perm (o.addLevel asset now level depth).layers :=
    List.perm_append_comm.trans ((hq.map _).append_left o.layers)
  have honce : ((queued.map (·.layer asset now depth) ++ o.layers).map (·.owner)).Nodup :=
    (harriving.map (·.owner)).nodup_iff.mpr h.parted.once_addLevel
  have hplaced : (o.placeLevel asset now queued depth).layers.Pairwise Layer.Before :=
    Layer.foldl_place_pairwise (List.pairwise_append.mp h.ordered).1 honce
  -- both are in order and hold the same layers
  have hperm : (o.placeLevel asset now queued depth).layers.Perm (o.addLevel asset now level depth).layers :=
    (Layer.foldl_place_perm _ _).trans harriving
  exact congrArg Overrides.mk
    (List.Perm.eq_of_pairwise (fun l l' _ _ hb ha => absurd ha hb.asymm) hplaced h.ordered hperm)

theorem Queue.Matches.next_level (h : q.Matches b pool level) (hpool : pool.Sublist b.policies.entries) (asset : PredicateSet)
    (now : Timestamp) (o : Overrides) :
    Queue.Matches b (o.unreached asset now level pool) (o.reached asset now level pool)
      ((o.followed asset now q.next).foldl (Queue.enter b) { met := q.met }) := by
  refine (Queue.Holds.foldl_enter b q.met (o.followed asset now q.next)).matches hpool h.met fun p => ?_
  rw [mem_followed, h.next.any_eq]

theorem Queue.matches_roots (b : Bundle) (roots : List Mrn) :
    Queue.Matches b (b.policies.entries.filter fun p => !roots.contains p.mrn)
      (b.policies.entries.filter fun p => roots.contains p.mrn) (roots.foldl (Queue.enter b) {}) :=
  (Queue.Holds.foldl_enter b [] roots).matches (List.Sublist.refl _) (by simp) (by simp)

theorem search_of_next_eq_nil (h : q.next = []) : search b asset now depth q o = o := by
  rw [search]
  exact dif_pos h

theorem search_of_next_ne_nil (h : q.next ≠ []) :
    search b asset now depth q o = search b asset now (depth + 1)
      (((o.placeLevel asset now q.next depth).followed asset now q.next).foldl (Queue.enter b) { met := q.met })
      (o.placeLevel asset now q.next depth) := by
  rw [search]
  exact dif_neg h

theorem Stage.search_eq {pool level : List Policy} {depth : Nat} {q : Queue} {o : Overrides}
    (h : Stage b asset now roots pool level depth o) (hq : q.Matches b pool level) :
    search b asset now depth q o = grow asset now pool level depth o := by
  by_cases hlevel : level = []
  · subst hlevel
    -- there are no roots: an empty level is collected once, and adds nothing
    rw [search_of_next_eq_nil hq.next.eq_nil, grow_last (by simp [reached])]
    simp [addLevel]
  · have hnext : q.next ≠ [] := fun hnil => hlevel (hq.next.symm.trans (.of_eq hnil)).eq_nil
    have hq' := hq.next_level h.parted.below asset now (o.addLevel asset now level depth)
    rw [search_of_next_ne_nil hnext, h.placeLevel_eq hq.next]
    by_cases hreached : (o.addLevel asset now level depth).reached asset now level pool = []
    · rw [grow_last hreached]
      exact search_of_next_eq_nil (hq'.next.trans (.of_eq hreached)).eq_nil
    · have hlt := length_unreached_lt _ hreached
      rw [grow_next hreached]
      exact (Stage.next h hreached).search_eq hq'
termination_by pool.length

/-- Whatever order the roots are queued in, what is discovered is what is collected. -/
theorem discover_eq_collect (b : Bundle) (asset : PredicateSet) (now : Timestamp) (roots : List Mrn) :
    discover b asset now roots = collect b asset now roots := by
  rw [discover, Stage.search_eq .start (Queue.matches_roots b roots), Stage.collect_eq .start]

end Overrides

end Compliance
