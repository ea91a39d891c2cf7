import Compliance.Proofs.Finishing
import Compliance.Proofs.FrameworkJobs

namespace Compliance

namespace ControlScope

variable (c : ControlScope) (d₀ : Draft)

def subcontrols (e : ControlMap) : List Mrn := e.controls.filter fun n => c.standing n ≠ .absent

def Leads (m n : Mrn) : Prop := n ∈ nexts c.evidence ControlMap.mrn c.subcontrols m

def settling (path : List Mrn) (m : Mrn) (done : List Mrn) : List Mrn :=
  finish c.evidence ControlMap.mrn c.subcontrols path m done

def settlingAll (path visits done : List Mrn) : List Mrn := visits.foldl (fun done n => c.settling path n done) done

def evidenceOf (m : Mrn) : List Evidence := (c.evidence.filter (·.mrn == m)).flatMap ControlMap.links

def evidenceLink (done : List (Mrn × Bool)) : Evidence → Option Link
  | .query role r => d₀.linked role r
  | .control n =>
    if c.standing n = .absent || !done.contains (n, true) then none
    else some (.mrn n, Impact.of (c.standing n) .unspecified none)

def linksAt (done : List (Mrn × Bool)) (m : Mrn) : List Link := (c.evidenceOf m).filterMap (c.evidenceLink d₀ done)

def visited : Evidence → Option Mrn
  | .query _ _ => none
  | .control n => if c.standing n = .absent then none else some n

variable {c d₀} {path : List Mrn} {m n : Mrn} {d : Draft} {done done' : List (Mrn × Bool)}

theorem filterMap_visited : (c.evidenceOf m).filterMap c.visited = nexts c.evidence ControlMap.mrn c.subcontrols m := by
  have hmap : ∀ e : ControlMap, e.links.filterMap c.visited = c.subcontrols e := by
    intro e
    have hrole : ∀ (role : Role) (l : List QueryRef), l.filterMap (c.visited ∘ Evidence.query role) = [] :=
      fun role l => List.filterMap_eq_nil_iff.mpr fun _ _ => rfl
    have hcontrol : c.visited ∘ Evidence.control = fun n => if c.standing n = .absent then none else some n := rfl
    rw [ControlMap.links, List.filterMap_append, List.filterMap_append, List.filterMap_map, List.filterMap_map,
      List.filterMap_map, hrole, hrole, List.nil_append, List.nil_append, subcontrols, hcontrol, ← List.filterMap_eq_filter]
    apply List.filterMap_congr
    intro n _
    by_cases ha : c.standing n = .absent
    · simp [ha, Option.guard]
    · simp [ha, Option.guard]
  rw [evidenceOf, nexts, List.filterMap_flatMap]
  exact List.flatMap_congr fun e _ => hmap e

theorem leads_iff : c.Leads m n ↔ .control n ∈ c.evidenceOf m ∧ c.standing n ≠ .absent := by
  rw [Leads, ← filterMap_visited, List.mem_filterMap]
  constructor
  · rintro ⟨x, hx, hn⟩
    cases x with
    | query role r => cases hn
    | control k =>
      obtain ⟨ha, hk⟩ := Option.ite_none_left_eq_some.mp hn
      obtain rfl := Option.some.inj hk
      exact ⟨hx, ha⟩
  · rintro ⟨hx, ha⟩
    exact ⟨_, hx, if_neg ha⟩

theorem control_open (hl : d.controls.lookup m = none) (hm : m ∉ path) : c.control path m d =
    (gather (c.follow (c.control (m :: path))) (c.evidenceOf m) d).2.conclude .control m .average
      (gather (c.follow (c.control (m :: path))) (c.evidenceOf m) d).1 := by
  rw [evidenceOf]
  rcases he : c.evidence.filter (·.mrn == m) with _ | ⟨e, rest⟩
  · rw [he]
    exact control_bare hl hm he
  · rw [he]
    exact control_first hl hm he

theorem evidenceLink_absent (ha : c.standing n = .absent) : c.evidenceLink d₀ done (.control n) = none := by
  simp only [evidenceLink, ha, decide_true, Bool.true_or, ↓reduceIte]

theorem evidenceLink_control {l : Link} : c.evidenceLink d₀ done (.control n) = some l ↔
    c.standing n ≠ .absent ∧ (n, true) ∈ done ∧ (.mrn n, Impact.of (c.standing n) .unspecified none) = l := by
  simp [evidenceLink, and_assoc]

theorem evidenceLink_eq (hs : done <:+ done') (hn : (done'.map Prod.fst).Nodup)
    (hm : m ∈ done.map Prod.fst ∨ m ∉ done'.map Prod.fst) :
    c.evidenceLink d₀ done (.control m) = c.evidenceLink d₀ done' (.control m) := by
  have hmade : done.contains (m, true) = done'.contains (m, true) := by
    rw [Bool.eq_iff_iff, List.contains_iff_mem, List.contains_iff_mem]
    refine ⟨fun h => hs.subset h, fun h => ?_⟩
    rcases hm with hm | hm
    · obtain ⟨⟨_, made⟩, hx, rfl⟩ := List.mem_map.mp hm
      rwa [Setting.eq_of_mem_ledger hn h (hs.subset hx)]
    · exact absurd (List.mem_map_of_mem h) hm
  simp only [evidenceLink, hmade]

end ControlScope

section

variable (d : Draft) (m : Mrn) (ls : List Link)

theorem Draft.conclude_tier (t u : Tier) : (d.conclude t.jobType m .average ls).2.ledger u.jobType =
    if u = t then (m, !ls.isEmpty) :: d.ledger u.jobType else d.ledger u.jobType := by
  rw [conclude_eq]
  exact concluding_tier d u ls

theorem Draft.conclude_control : (d.conclude .control m .average ls).2.controls = (m, !ls.isEmpty) :: d.controls ∧
    (d.conclude .control m .average ls).2.frameworks = d.frameworks :=
  ⟨d.conclude_tier m ls .control .control, d.conclude_tier m ls .control .framework⟩

theorem Draft.conclude_framework : (d.conclude .framework m .average ls).2.controls = d.controls ∧
    (d.conclude .framework m .average ls).2.frameworks = (m, !ls.isEmpty) :: d.frameworks :=
  ⟨d.conclude_tier m ls .framework .control, d.conclude_tier m ls .framework .framework⟩

end

namespace Setting

section

variable (s : Setting) (c : ControlScope) (root : Identity) (d₀ : Draft)

inductive Frames (done : List (Mrn × Bool)) : Link → Prop
  | control {n : Mrn} : c.standing n ≠ .absent → (n, true) ∈ done →
    Frames done (.mrn n, Impact.of (c.standing n) .unspecified none)
  | framework {f : Framework} (w : Impact) : s.bundle.frameworks.find? f.mrn = some f → Frames done (.mrn f.mrn, w)

inductive Vouched (done : List (Mrn × Bool)) : Edit → Prop
  | note (x : Event) : Vouched done (.note x)
  | settle (t : Tier) (m : Mrn) (made : Bool) : Vouched done (.settle t.jobType m made)
  | control {m : Mrn} {tail : List (Mrn × Bool)} : (m, true) :: tail <:+ done →
    Vouched done (.structural m .control .average (c.linksAt d₀ tail m))
  | framework {f : Framework} {ls : List Link} : s.bundle.frameworks.find? f.mrn = some f →
    (∀ l ∈ ls, s.Frames c done l) → Vouched done (.structural f.mrn .framework .average ls)
  | hang {f : Framework} : s.bundle.frameworks.find? f.mrn = some f → Vouched done (.connect root (.mrn f.mrn) .ignored)

structure Audited (log : List Edit) (d : Draft) : Prop where
  eq : d = d₀.replay log
  sound : ∀ e ∈ log, s.Vouched c root d₀ d.controls e
  settled : ∀ m made tail, (m, made) :: tail <:+ d.controls → c.standing m ≠ .absent ∧
    (made = true ↔ c.linksAt d₀ tail m ≠ []) ∧
      (made = true → .structural m .control .average (c.linksAt d₀ tail m) ∈ log)
  declared : ∀ m ∈ d.frameworks.map Prod.fst, ∃ f, s.bundle.frameworks.find? m = some f

structure Audit (path : List Mrn) (log : List Edit) (d : Draft) (log' : List Edit) (d' : Draft) (order : List Mrn) :
    Prop where
  audited : s.Audited c root d₀ (log ++ log') d'
  keys : d'.controls.map Prod.fst = order
  finished : Finished c.Leads path order
  frameworks : d'.frameworks = d.frameworks

end

variable {s : Setting} {c : ControlScope} {root : Identity} {d₀ d d' d'' : Draft} {path : List Mrn}
  {log log' log'' : List Edit} {order order' : List Mrn} {done done' : List (Mrn × Bool)} {m n : Mrn} {e : Edit}

theorem Frames.mono {l : Link} (h : s.Frames c done l) (hd : done <:+ done') : s.Frames c done' l := by
  cases h with
  | control ha hm => exact .control ha (hd.subset hm)
  | framework w hf => exact .framework w hf

theorem Vouched.mono (h : s.Vouched c root d₀ done e) (hd : done <:+ done') : s.Vouched c root d₀ done' e := by
  cases h with
  | note x => exact .note x
  | settle t m made => exact .settle t m made
  | control ht => exact .control (ht.trans hd)
  | framework hf hl => exact .framework hf fun l hm => (hl l hm).mono hd
  | hang hf => exact .hang hf

theorem Vouched.entered (h : s.Vouched c root d₀ done e) (role : Role) (m : Mrn) : e.entered role m = none := by
  cases h <;> rfl

namespace Audited

theorem step (h : s.Audited c root d₀ log d) (h' : s.Audited c root d₀ (log ++ log') d') : d' = d.replay log' := by
  rw [h'.eq, Draft.replay_append, ← h.eq]

theorem suffix (h : s.Audited c root d₀ log d) (h' : s.Audited c root d₀ (log ++ log') d') : d.controls <:+ d'.controls := by
  have hl : d'.controls = log'.reverse.flatMap (Edit.entries .control) ++ d.controls := by
    rw [h.step h']
    exact Draft.replay_ledger d log' .control
  rw [hl]
  exact List.suffix_append ..

theorem linked (h : s.Audited c root d₀ log d) (role : Role) (r : QueryRef) : d.linked role r = d₀.linked role r := by
  have hnone : log.findSome? (Edit.entered role r.mrn) = none :=
    List.findSome?_eq_none_iff.mpr fun e he => (h.sound e he).entered role r.mrn
  rw [Draft.linked, h.eq, Draft.replay_lookup, hnone, Option.or_none, Draft.linked]

theorem extend (h : s.Audited c root d₀ log d) (log' : List Edit) (hs : ∀ e ∈ log', s.Vouched c root d₀ d.controls e)
    (hl : ∀ e ∈ log', ∀ t : Tier, e.entries t.jobType = []) : s.Audited c root d₀ (log ++ log') (d.replay log') := by
  have hcontrols : (d.replay log').controls = d.controls := Draft.replay_ledger_of_forall fun e he => hl e he .control
  have hframeworks : (d.replay log').frameworks = d.frameworks :=
    Draft.replay_ledger_of_forall fun e he => hl e he .framework
  refine ⟨?_, ?_, ?_, ?_⟩
  · rw [Draft.replay_append, ← h.eq]
  · rw [hcontrols]
    exact List.forall_mem_append.mpr ⟨h.sound, hs⟩
  · rw [hcontrols]
    intro m made tail ht
    obtain ⟨ha, hmade, hedit⟩ := h.settled m made tail ht
    exact ⟨ha, hmade, fun hm => List.mem_append_left _ (hedit hm)⟩
  · rw [hframeworks]
    exact h.declared

theorem note (h : s.Audited c root d₀ log d) (x : Event) : s.Audited c root d₀ (log ++ [.note x]) (d.note x) := by
  refine h.extend [.note x] ?_ ?_
  · intro e he
    rw [List.mem_singleton.mp he]
    exact .note x
  · intro e he t
    rw [List.mem_singleton.mp he]
    cases t <;> rfl

theorem control (h : s.Audited c root d₀ log d) (ha : c.standing m ≠ .absent) :
    s.Audited c root d₀ (log ++ concluding .control m .average (c.linksAt d₀ d.controls m))
      (d.conclude .control m .average (c.linksAt d₀ d.controls m)).2 := by
  generalize hls : c.linksAt d₀ d.controls m = ls
  obtain ⟨hcontrols, hframeworks⟩ := d.conclude_control m ls
  have hext : d.controls <:+ (m, !ls.isEmpty) :: d.controls := List.suffix_cons ..
  refine ⟨?_, ?_, ?_, ?_⟩
  · rw [conclude_eq, Draft.replay_append, ← h.eq]
  · rw [hcontrols]
    intro e he
    rcases List.mem_append.mp he with he | he
    · exact (h.sound e he).mono hext
    · rcases mem_concluding.mp he with ⟨hne, rfl⟩ | rfl
      · have hmade : (!ls.isEmpty) = true := by simpa using hne
        rw [hmade, ← hls]
        exact .control (List.suffix_refl _)
      · exact .settle .control m _
  · rw [hcontrols]
    intro n made tail ht
    rcases List.suffix_cons_iff.mp ht with ht | ht
    · obtain ⟨hx, rfl⟩ := List.cons.inj ht
      obtain ⟨rfl, rfl⟩ := Prod.mk.inj hx
      rw [hls]
      refine ⟨ha, by simp, fun hm => List.mem_append_right _ (mem_concluding.mpr (.inl ⟨by simpa using hm, rfl⟩))⟩
    · obtain ⟨hn, hmade, hedit⟩ := h.settled n made tail ht
      exact ⟨hn, hmade, fun hm => List.mem_append_left _ (hedit hm)⟩
  · rw [hframeworks]
    exact h.declared

theorem framework (h : s.Audited c root d₀ log d) {f : Framework} (hf : s.bundle.frameworks.find? f.mrn = some f)
    {ls : List Link} (hl : ∀ l ∈ ls, s.Frames c d.controls l) :
    s.Audited c root d₀ (log ++ concluding .framework f.mrn .average ls) (d.conclude .framework f.mrn .average ls).2 := by
  obtain ⟨hcontrols, hframeworks⟩ := d.conclude_framework f.mrn ls
  refine ⟨?_, ?_, ?_, ?_⟩
  · rw [conclude_eq, Draft.replay_append, ← h.eq]
  · rw [hcontrols]
    intro e he
    rcases List.mem_append.mp he with he | he
    · exact h.sound e he
    · rcases mem_concluding.mp he with ⟨-, rfl⟩ | rfl
      · exact .framework hf hl
      · exact .settle .framework f.mrn _
  · rw [hcontrols]
    intro n made tail ht
    obtain ⟨hn, hmade, hedit⟩ := h.settled n made tail ht
    exact ⟨hn, hmade, fun hm => List.mem_append_left _ (hedit hm)⟩
  · rw [hframeworks]
    exact List.forall_mem_cons.mpr ⟨⟨f, hf⟩, h.declared⟩

end Audited

theorem settling_finished (h : Finished c.Leads path order) (hp : ∀ k ∈ path, Relation.ReflTransGen c.Leads k m) :
    Finished c.Leads path (c.settling path m order) ∧ order <:+ c.settling path m order ∧
      (m ∈ c.settling path m order ∨ m ∈ path) :=
  finish_finished (fun _ _ => Iff.rfl) h hp

namespace Audit

theorem idle (h : s.Audited c root d₀ log d) (hf : Finished c.Leads path (d.controls.map Prod.fst)) :
    s.Audit c root d₀ path log d [] d (d.controls.map Prod.fst) :=
  ⟨by rwa [List.append_nil], rfl, hf, rfl⟩

theorem trans (h : s.Audit c root d₀ path log d log' d' order)
    (h' : s.Audit c root d₀ path (log ++ log') d' log'' d'' order') :
    s.Audit c root d₀ path log d (log' ++ log'') d'' order' :=
  ⟨by rw [← List.append_assoc]; exact h'.audited, h'.keys, h'.finished, h'.frameworks.trans h.frameworks⟩

theorem evidenceLink {x : Evidence} (h : s.Audited c root d₀ log d) (h' : s.Audit c root d₀ path log d log' d' order)
    (hx : ∀ n, c.visited x = some n → n ∈ d.controls.map Prod.fst ∨ n ∈ path) :
    c.evidenceLink d₀ d.controls x = c.evidenceLink d₀ d'.controls x := by
  cases x with
  | query role r => rfl
  | control n =>
    by_cases ha : c.standing n = .absent
    · rw [ControlScope.evidenceLink_absent ha, ControlScope.evidenceLink_absent ha]
    · apply ControlScope.evidenceLink_eq (h.suffix h'.audited)
      · rw [h'.keys]
        exact h'.finished.once
      · rw [h'.keys]
        exact (hx n (if_neg ha)).imp id (h'.finished.apart n)

theorem conclude (ha : c.standing m ≠ .absent) (h : s.Audit c root d₀ (m :: path) log d log' d' order)
    (hf : Finished c.Leads path order') (ho : order' = m :: order) : ∃ log'',
      s.Audit c root d₀ path log d log'' (d'.conclude .control m .average (c.linksAt d₀ d'.controls m)).2 order' ∧
        ((d'.conclude .control m .average (c.linksAt d₀ d'.controls m)).1 = true ↔
          (m, true) ∈ (d'.conclude .control m .average (c.linksAt d₀ d'.controls m)).2.controls) := by
  have hdone := h.audited.control ha
  obtain ⟨hcontrols, hframeworks⟩ := d'.conclude_control m (c.linksAt d₀ d'.controls m)
  refine ⟨log' ++ concluding .control m .average (c.linksAt d₀ d'.controls m), ⟨?_, ?_, hf, ?_⟩, ?_⟩
  · rw [← List.append_assoc]
    exact hdone
  · rw [hcontrols, List.map_cons, h.keys, ho]
  · rw [hframeworks, h.frameworks]
  · have hfresh : (m, true) ∉ d'.controls := by
      intro hm
      exact h.finished.apart m List.mem_cons_self (h.keys ▸ List.mem_map_of_mem hm)
    rw [hcontrols, conclude_eq]
    simp [hfresh]

end Audit

def Examines (s : Setting) (c : ControlScope) (root : Identity) (d₀ : Draft) (path : List Mrn) (m : Mrn) : Prop :=
  ∀ d log, s.Audited c root d₀ log d → Finished c.Leads path (d.controls.map Prod.fst) → ∃ log',
    s.Audit c root d₀ path log d log' (c.control path m d).2 (c.settling path m (d.controls.map Prod.fst)) ∧
      ((c.control path m d).1 = true ↔ (m, true) ∈ (c.control path m d).2.controls)

theorem follow_audit {x : Evidence} (hx : ∀ n, c.visited x = some n → s.Examines c root d₀ path n ∧
      ∀ k ∈ path, Relation.ReflTransGen c.Leads k n)
    (h : s.Audited c root d₀ log d) (hf : Finished c.Leads path (d.controls.map Prod.fst)) : ∃ log',
      s.Audit c root d₀ path log d log' (c.follow (c.control path) x d).2
        (c.settlingAll path (c.visited x).toList (d.controls.map Prod.fst)) ∧
      (c.follow (c.control path) x d).1 = c.evidenceLink d₀ (c.follow (c.control path) x d).2.controls x ∧
      ∀ n, c.visited x = some n → n ∈ (c.follow (c.control path) x d).2.controls.map Prod.fst ∨ n ∈ path := by
  cases x with
  | query role r => exact ⟨[], .idle h hf, h.linked role r, fun n hn => absurd hn (Option.some_ne_none n).symm⟩
  | control n =>
    by_cases ha : c.standing n = .absent
    · have hnone : c.visited (.control n) = none := if_pos ha
      have hstep : c.follow (c.control path) (.control n) d = (none, d) := by
        simp only [ControlScope.follow, ControlScope.link, ha, ↓reduceIte]
      rw [hstep, hnone, ControlScope.evidenceLink_absent ha]
      exact ⟨[], .idle h hf, rfl, fun n hn => absurd hn (Option.some_ne_none n).symm⟩
    · have hsome : c.visited (.control n) = some n := if_neg ha
      have hstep : c.follow (c.control path) (.control n) d =
          (if (c.control path n d).1 then some (.mrn n, Impact.of (c.standing n) .unspecified none) else none,
            (c.control path n d).2) := by
        simp only [ControlScope.follow, ControlScope.link, ha, ↓reduceIte]
      obtain ⟨hexamines, hpath⟩ := hx n hsome
      obtain ⟨log', haudit, hmade⟩ := hexamines d log h hf
      rw [hstep, hsome]
      refine ⟨log', haudit, ?_, ?_⟩
      · have hlink : (c.control path n d).2.controls.contains (n, true) = (c.control path n d).1 := by
          rw [Bool.eq_iff_iff, List.contains_iff_mem, hmade]
        simp only [ControlScope.evidenceLink, ha, decide_false, Bool.false_or, hlink]
        cases (c.control path n d).1 <;> rfl
      · intro k hk
        obtain rfl := Option.some.inj hk
        rw [haudit.keys]
        exact (settling_finished hf hpath).2.2

theorem gather_audit {l : List Evidence}
    (hl : ∀ x ∈ l, ∀ n, c.visited x = some n → s.Examines c root d₀ path n ∧ ∀ k ∈ path, Relation.ReflTransGen c.Leads k n)
    (h : s.Audited c root d₀ log d) (hf : Finished c.Leads path (d.controls.map Prod.fst)) : ∃ log',
      s.Audit c root d₀ path log d log' (gather (c.follow (c.control path)) l d).2
        (c.settlingAll path (l.filterMap c.visited) (d.controls.map Prod.fst)) ∧
      (gather (c.follow (c.control path)) l d).1 =
        l.filterMap (c.evidenceLink d₀ (gather (c.follow (c.control path)) l d).2.controls) := by
  have hcons : ∀ {β : Type} (f : Evidence → Option β) x rest,
      (x :: rest).filterMap f = (f x).toList ++ rest.filterMap f := by
    intro β f x rest
    cases hx : f x <;> simp [hx]
  induction l generalizing d log with
  | nil => exact ⟨[], .idle h hf, rfl⟩
  | cons x rest ih =>
    obtain ⟨log₁, hfirst, hlink, hmet⟩ := follow_audit (hl x List.mem_cons_self) h hf
    obtain ⟨log₂, hrest, hlinks⟩ :=
      ih (fun y hy => hl y (List.mem_cons_of_mem x hy)) hfirst.audited (hfirst.keys ▸ hfirst.finished)
    rw [gather_cons, hcons, ControlScope.settlingAll, List.foldl_append, hlinks, hlink, hcons,
      hrest.evidenceLink hfirst.audited hmet]
    rw [hfirst.keys] at hrest
    exact ⟨log₁ ++ log₂, hfirst.trans hrest, rfl⟩

theorem control_audit (path : List Mrn) (m : Mrn) (ha : c.standing m ≠ .absent)
    (hp : ∀ k ∈ path, Relation.ReflTransGen c.Leads k m) : s.Examines c root d₀ path m := by
  intro d log h hf
  cases hl : d.controls.lookup m with
  | some made =>
    have hm := mem_of_lookup hl
    have hkeys : c.settling path m (d.controls.map Prod.fst) = d.controls.map Prod.fst :=
      finish_done (List.mem_map_of_mem hm)
    rw [ControlScope.control_settled hl, hkeys]
    refine ⟨[], .idle h hf, ?_⟩
    constructor
    · rintro rfl
      exact hm
    · exact fun h => eq_of_mem_ledger hf.once hm h
  | none =>
    by_cases hpath : m ∈ path
    · have hkeys : c.settling path m (d.controls.map Prod.fst) = d.controls.map Prod.fst := finish_busy hpath
      rw [ControlScope.control_cut hl hpath, hkeys]
      -- cut, it counts as one without a job, but is settled only later
      refine ⟨[.note (.controlCycle m)], ⟨h.note _, rfl, hf, rfl⟩, ?_⟩
      constructor
      · exact nofun
      · exact fun hm => absurd (List.mem_map_of_mem hm) (hf.apart m hpath)
    · have hn := not_mem_of_lookup hl
      have hbusy : Finished c.Leads (m :: path) (d.controls.map Prod.fst) :=
        ⟨hf.once, List.forall_mem_cons.mpr ⟨hn, hf.apart⟩, hf.after⟩
      have hback : ∀ k ∈ m :: path, Relation.ReflTransGen c.Leads k m := List.forall_mem_cons.mpr ⟨.refl, hp⟩
      have hbelow : ∀ x ∈ c.evidenceOf m, ∀ n, c.visited x = some n →
          s.Examines c root d₀ (m :: path) n ∧ ∀ k ∈ m :: path, Relation.ReflTransGen c.Leads k n := by
        intro x hx n hn
        have hleads : c.Leads m n := by
          rw [ControlScope.Leads, ← ControlScope.filterMap_visited]
          exact List.mem_filterMap.mpr ⟨x, hx, hn⟩
        have hs := (ControlScope.leads_iff.mp hleads).2
        have hpath' := fun k hk => (hback k hk).tail hleads
        exact ⟨control_audit (m :: path) n hs hpath', hpath'⟩
      obtain ⟨log', haudit, hlinks⟩ := gather_audit hbelow h hbusy
      have hkeys : c.settling path m (d.controls.map Prod.fst) =
          m :: c.settlingAll (m :: path) ((c.evidenceOf m).filterMap c.visited) (d.controls.map Prod.fst) := by
        rw [ControlScope.filterMap_visited]
        exact finish_first hn hpath
      rw [ControlScope.control_open hl hpath, hlinks]
      exact haudit.conclude ha (settling_finished hf hp).1 hkeys
termination_by unvisited ControlMap.mrn c.evidence path
decreasing_by exact unvisited_nexts_lt hleads hpath

end Setting

end Compliance
