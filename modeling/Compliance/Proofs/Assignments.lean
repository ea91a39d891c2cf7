import Compliance.Proofs.Impacts
import Compliance.Proofs.Reordering
import Compliance.Proofs.Resemblance
import Compliance.Proofs.Survey

namespace Compliance

theorem findSome?_eq_some_iff_exists {α β : Type} {f : α → Option β} {l : List α} {y : β}
    (h : ∀ a ∈ l, ∀ x, f a = some x → ∀ b ∈ l, ∀ y, f b = some y → x = y) :
    l.findSome? f = some y ↔ ∃ a ∈ l, f a = some y := by
  constructor
  · exact List.exists_of_findSome?_eq_some
  · rintro ⟨a, ha, hy⟩
    have hs : (l.findSome? f).isSome = true := List.findSome?_isSome_iff.mpr ⟨a, ha, by rw [hy, Option.isSome_some]⟩
    obtain ⟨x, hx⟩ := Option.isSome_iff_exists.mp hs
    obtain ⟨b, hb, hbx⟩ := List.exists_of_findSome?_eq_some hx
    rw [hx, h b hb x hbx a ha y hy]

def Edit.weighed (m : Mrn) : Edit → Option Float32
  | .weigh n x => if n = m then some x else none
  | _ => none

namespace Draft

theorem enter_magnitudes (d : Draft) (role : Role) (m : Mrn) (i : Identity) :
    (d.enter role m i).magnitudes = d.magnitudes := by
  unfold enter
  split
  · rfl
  · cases role <;> rfl

theorem apply_magnitude (d : Draft) (e : Edit) (m : Mrn) :
    NameMap.get? (d.apply e).magnitudes m = (e.weighed m).or (NameMap.get? d.magnitudes m) := by
  cases e with
  | leaf role q c k => exact congrArg (NameMap.get? · m) (enter_magnitudes ..)
  | composite role q vs =>
    simp only [apply, above, Edit.weighed, Option.none_or]
    split
    · rfl
    · exact congrArg (NameMap.get? · m) (enter_magnitudes ..)
  | structural n t sc ls =>
    simp only [apply, structural, Edit.weighed, Option.none_or]
    split <;> rfl
  | settle t n made => cases t <;> rfl
  | weigh n x =>
    simp only [apply, NameMap.get?_set, Edit.weighed]
    split <;> rfl
  | _ => rfl

theorem replay_magnitude (d : Draft) (log : List Edit) (m : Mrn) : NameMap.get? (d.replay log).magnitudes m =
    (log.reverse.findSome? (Edit.weighed m)).or (NameMap.get? d.magnitudes m) := by
  induction log generalizing d with
  | nil => rfl
  | cons e rest ih =>
    rw [replay_cons, ih, apply_magnitude, List.reverse_cons, List.findSome?_append, Option.or_assoc]
    cases he : e.weighed m <;> simp [he]

theorem replay_magnitudes_of_forall {d : Draft} {log : List Edit} (h : ∀ e ∈ log, ∀ m, e.weighed m = none) :
    (d.replay log).magnitudes = d.magnitudes := by
  apply NameMap.ext_get?
  intro m
  have hnone : log.reverse.findSome? (Edit.weighed m) = none :=
    List.findSome?_eq_none_iff.mpr fun e he => h e (List.mem_reverse.mp he) m
  rw [replay_magnitude, hnone, Option.none_or]

end Draft

namespace Setting

variable {s : Setting} {root : Identity} {roots path ms ms' : List Mrn} {log log' : List Edit} {d d' d₀ : Draft}
  {e : Edit} {role : Role} {m : Mrn} {i : Identity} {asset : Mrn}

theorem Draws.entered {role' : Role} {x : List Mrn × Query} (h : s.Draws role' x e) (hx : x.2 ∈ s.bundle.queries.entries)
    (he : e.entered role m = some i) : role' = role ∧ ∃ q ∈ s.bundle.queries.entries, q.mrn = m ∧ i = role.identity q := by
  cases h with
  | leaf ht hn hc =>
    obtain ⟨⟨rfl, hm⟩, hi⟩ := Option.ite_none_right_eq_some.mp he
    exact ⟨rfl, _, Trail.mem ht hx, hm, by simp [Role.identity, hn, hc, ← Option.some.inj hi]⟩
  | composite ht hp hl =>
    obtain ⟨⟨-, rfl, hm⟩, hi⟩ := Option.ite_none_right_eq_some.mp he
    obtain ⟨v, hv, -⟩ := variantLinks_ne_nil.mp hl
    exact ⟨rfl, _, Trail.mem ht hx, hm, by simp [Role.identity, hv.isComposite, ← Option.some.inj hi]⟩

theorem Told.entered (h : s.Told root roots d₀ path log d) (he : e ∈ log) (hi : e.entered role m = some i) :
    ∃ q, s.Referenced roots role q ∧ s.Draws role ([], q) e := by
  rcases h.sound e he with he | ⟨n, -, -, rfl⟩
  · cases he with
    | query hq hd =>
      obtain ⟨rfl, -⟩ := hd.entered hq.mem hi
      exact ⟨_, hq, hd⟩
    | raising _ _ _ _ _ he =>
      simp only [raising, List.mem_cons, List.not_mem_nil, or_false] at he
      rcases he with rfl | rfl <;> cases hi
    | _ => cases hi
  · cases hi

theorem Assigned.lookup_iff (ha : Assigned s ms (.start assetRoot .unspecified asset) ms log d) :
    (d.index role).lookup m = some i ↔
      ∃ q e, s.Referenced ms role q ∧ s.Draws role ([], q) e ∧ e.entered role m = some i := by
  have hnone : ((Draft.start assetRoot .unspecified asset).index role).lookup m = none := by cases role <;> rfl
  rw [ha.told.eq, Draft.replay_lookup, hnone, Option.none_or, findSome?_eq_some_iff_exists]
  · constructor
    · rintro ⟨e, he, hi⟩
      obtain ⟨q, hq, hd⟩ := ha.told.entered he hi
      exact ⟨q, e, hq, hd, hi⟩
    · rintro ⟨q, e, hq, hd, hi⟩
      exact ⟨e, mem_log_of_referenced (fun p hp => ha.followed (fun _ hm _ _ => hm) hp) hq hd, hi⟩
  · intro e he x hx e' he' y hy
    obtain ⟨q, hq, hd⟩ := ha.told.entered he hx
    obtain ⟨q', hq', hd'⟩ := ha.told.entered he' hy
    obtain ⟨-, u, hu, hum, rfl⟩ := hd.entered hq.mem hx
    obtain ⟨-, u', hu', hum', rfl⟩ := hd'.entered hq'.mem hy
    rw [eq_of_mrn hu hu' (hum.trans hum'.symm)]

theorem Assigned.bare (ha : Assigned s ms (.start assetRoot .unspecified asset) ms log d) (t : Tier) :
    d.ledger t.jobType = [] := by
  rw [ha.told.eq, Draft.replay_ledger_of_forall fun e he => ha.told.tier_entries he t]
  cases t <;> rfl

theorem Assigned.alike (ha : Assigned s ms (.start assetRoot .unspecified asset) ms log d)
    (ha' : Assigned s ms' (.start assetRoot .unspecified asset) ms' log' d') (h : ∀ m, m ∈ ms ↔ m ∈ ms') : d.Alike d' := by
  refine ⟨(ha.bare .framework).trans (ha'.bare .framework).symm, (ha.bare .control).trans (ha'.bare .control).symm, ?_⟩
  intro role m
  apply Option.ext
  intro i
  rw [ha.lookup_iff, ha'.lookup_iff]
  simp only [Referenced.congr h]

theorem weighed_eq_some {x : Float32} : e.weighed m = some x ↔ e = .weigh m x := by
  cases e with
  | weigh n y =>
    simp only [Edit.weighed, Option.ite_none_right_eq_some, Option.some.injEq, Edit.weigh.injEq]
  | _ => simp [Edit.weighed]

theorem Told.weighed {x : Float32} (h : s.Told root roots d₀ path log d) (he : .weigh m x ∈ log) :
    ∃ p f k, s.Walked roots p ∧ f ∈ p.riskReferences s.asset s.now ∧ s.bundle.riskFactors.find? f.mrn = some k ∧
      s.Raised k ∧ .weigh m x ∈ s.raising k := by
  rcases h.sound _ he with he | ⟨n, -, -, he⟩
  · cases he with
    | query _ hd => cases hd
    | raising hp hf hk hr _ he => exact ⟨_, _, _, hp, hf, hk, hr, he⟩
  · cases he

theorem raising_weigh_inj {k k' : RiskFactor} {n n' : Mrn} {x y : Float32} (hk : s.bundle.riskFactors.find? n = some k)
    (hk' : s.bundle.riskFactors.find? n' = some k') (hx : .weigh m x ∈ s.raising k) (hy : .weigh m y ∈ s.raising k') :
    x = y := by
  simp only [raising, List.mem_cons, reduceCtorEq, Edit.weigh.injEq, List.not_mem_nil, or_false, false_or] at hx hy
  obtain ⟨rfl, rfl⟩ := hx
  obtain ⟨hm, rfl⟩ := hy
  rw [← Keyed.key_of_find? hk] at hk
  rw [← Keyed.key_of_find? hk', ← hm] at hk'
  rw [Option.some.inj (hk.symm.trans hk')]

theorem Told.magnitude_iff {x : Float32} (h : s.Told root roots d₀ path log d)
    (hnone : NameMap.get? d₀.magnitudes m = none)
    (hf : ∀ p, s.Walked roots p → ∀ r ∈ p.references s.asset s.now, s.Followed path d.policies log p r) :
    NameMap.get? d.magnitudes m = some x ↔ ∃ p f k, s.Walked roots p ∧ f ∈ p.riskReferences s.asset s.now ∧
      s.bundle.riskFactors.find? f.mrn = some k ∧ s.Raised k ∧ .weigh m x ∈ s.raising k := by
  rw [h.eq, Draft.replay_magnitude, hnone, Option.or_none, findSome?_eq_some_iff_exists]
  · simp only [List.mem_reverse, weighed_eq_some, exists_eq_right]
    constructor
    · exact h.weighed
    · rintro ⟨p, f, k, hp, hr, hk, hraised, he⟩
      have hx := hf p hp _ (Policy.mem_references_riskFactor.mpr ⟨f, hr, rfl⟩) k hk
      exact (hx.2 hraised.1).2 hraised.2 _ he
  · intro e he x hx e' he' y hy
    rw [List.mem_reverse] at he he'
    rw [weighed_eq_some.mp hx] at he
    rw [weighed_eq_some.mp hy] at he'
    obtain ⟨p, f, k, -, -, hk, -, hw⟩ := h.weighed he
    obtain ⟨p', f', k', -, -, hk', -, hw'⟩ := h.weighed he'
    exact raising_weigh_inj hk hk' hw hw'

theorem Assigned.magnitude_iff {x : Float32} (ha : Assigned s ms (.start assetRoot .unspecified asset) ms log d) :
    NameMap.get? d.magnitudes m = some x ↔ ∃ p f k, s.Walked ms p ∧ f ∈ p.riskReferences s.asset s.now ∧
      s.bundle.riskFactors.find? f.mrn = some k ∧ s.Raised k ∧ .weigh m x ∈ s.raising k :=
  ha.told.magnitude_iff rfl fun _ hp => ha.followed (fun _ hm _ _ => hm) hp

theorem Assigned.magnitudes_eq (ha : Assigned s ms (.start assetRoot .unspecified asset) ms log d)
    (ha' : Assigned s ms' (.start assetRoot .unspecified asset) ms' log' d') (h : ∀ m, m ∈ ms ↔ m ∈ ms') :
    d.magnitudes = d'.magnitudes := by
  apply NameMap.ext_get?
  intro m
  apply Option.ext
  intro x
  rw [ha.magnitude_iff, ha'.magnitude_iff]
  simp only [Walked.congr h]

end Setting

end Compliance
