import Compliance.Proofs.Ledger
import Compliance.Proofs.Overlay

namespace Compliance

def Beside (t d d' : Draft) : Prop :=
  ∀ ty m, (d'.ledger ty).lookup m = ((t.ledger ty).lookup m).or ((d.ledger ty).lookup m)

theorem Draft.ledger_suffix (d : Draft) (log : List Edit) (t : JobType) : d.ledger t <:+ (d.replay log).ledger t := by
  rw [replay_ledger]
  exact List.suffix_append ..

theorem Draft.replay_lookup_ledger (d : Draft) (log : List Edit) (t : JobType) (m : Mrn) :
    ((d.replay log).ledger t).lookup m =
      ((log.reverse.flatMap (Edit.entries t)).lookup m).or ((d.ledger t).lookup m) := by
  rw [replay_ledger, List.lookup_append]

theorem lookup_eq_none_iff_not_mem {l : List (Mrn × Bool)} {m : Mrn} : l.lookup m = none ↔ m ∉ l.map Prod.fst := by
  constructor
  · exact not_mem_of_lookup
  · intro hm
    apply List.lookup_eq_none_iff.mpr
    intro x hx
    have hne : x.1 ≠ m := fun he => hm (he ▸ List.mem_map_of_mem hx)
    simpa using hne.symm

theorem exists_lookup_of_mem {l : List (Mrn × Bool)} {m : Mrn} (hm : m ∈ l.map Prod.fst) :
    ∃ made, l.lookup m = some made := by
  cases hl : l.lookup m with
  | none => exact absurd hm (not_mem_of_lookup hl)
  | some made => exact ⟨made, rfl⟩

namespace Beside

variable {t d d' : Draft} {log : List Edit} {m : Mrn} {made : Bool}

theorem lookup_of_earlier (h : Beside t d d') (ty : JobType) (ht : (t.ledger ty).lookup m = some made) :
    (d'.ledger ty).lookup m = some made := by
  rw [h ty m, ht]
  rfl

theorem lookup_of_fresh (h : Beside t d d') (ty : JobType) (ht : (t.ledger ty).lookup m = none) :
    (d'.ledger ty).lookup m = (d.ledger ty).lookup m := by
  rw [h ty m, ht]
  rfl

theorem same (h : Beside t d d')
    (hn : ∀ ty, ∀ e ∈ log, ∀ x ∈ e.entries ty, x.1 ∉ (t.ledger ty).map Prod.fst) :
    Beside t (d.replay log) (d'.replay log) := by
  intro ty m
  rw [Draft.replay_lookup_ledger, Draft.replay_lookup_ledger, h ty m]
  by_cases hm : m ∈ (t.ledger ty).map Prod.fst
  · have hnew : (log.reverse.flatMap (Edit.entries ty)).lookup m = none := by
      apply lookup_eq_none_iff_not_mem.mpr
      intro hmem
      obtain ⟨x, hx, rfl⟩ := List.mem_map.mp hmem
      obtain ⟨e, he, hx⟩ := List.mem_flatMap.mp hx
      exact hn ty e (List.mem_reverse.mp he) x hx hm
    rw [hnew, Option.none_or, Option.none_or]
  · rw [lookup_eq_none_iff_not_mem.mpr hm, Option.none_or, Option.none_or]

theorem alone (h : Beside t d d')
    (hn : ∀ ty, ∀ e ∈ log, ∀ x ∈ e.entries ty, x.1 ∈ (t.ledger ty).map Prod.fst) :
    Beside t (d.replay log) d' := by
  intro ty m
  rw [Draft.replay_lookup_ledger, h ty m]
  by_cases hm : m ∈ (t.ledger ty).map Prod.fst
  · obtain ⟨made, hl⟩ := exists_lookup_of_mem hm
    rw [hl]
    rfl
  · have hnew : (log.reverse.flatMap (Edit.entries ty)).lookup m = none := by
      apply lookup_eq_none_iff_not_mem.mpr
      intro hmem
      obtain ⟨x, hx, rfl⟩ := List.mem_map.mp hmem
      obtain ⟨e, he, hx⟩ := List.mem_flatMap.mp hx
      exact hm (hn ty e (List.mem_reverse.mp he) x hx)
    rw [hnew, Option.none_or]

end Beside

namespace Setting

variable (s : Setting) (root : Identity)

def Accord (done done' : List (Mrn × Bool)) : Prop :=
  ∀ m made tail made' tail', (m, made) :: tail <:+ done → (m, made') :: tail' <:+ done' →
    ∀ p, s.bundle.policies.find? m = some p → made = made' ∧ s.linksAt tail p = s.linksAt tail' p

structure Earlier (path : List Mrn) (seen : List Edit) (t : Draft) : Prop where
  told : ∃ roots d₀, s.Told root roots d₀ [] seen t
  apart : ∀ m ∈ path, m ∉ t.policies.map Prod.fst

/-- After an earlier walk a visit has the same outcome and takes the same edits but for those that
were taken before. -/
def Echo {β : Type} (path : List Mrn) (f : Draft → β × Draft) (d : Draft) (out : β) (log : List Edit) : Prop :=
  ∀ seen t d', s.Earlier root path seen t → Beside t d d' → s.Accord t.policies (d.replay log).policies →
    ∃ log', f d' = (out, d'.replay log') ∧ Thins seen log log' ∧ Beside t (d.replay log) (d'.replay log')

variable {s root} {roots path : List Mrn} {done done' risks : List (Mrn × Bool)} {seen log : List Edit} {t d : Draft}
  {p : Policy} {k : RiskFactor} {m : Mrn} {e : Edit}

theorem Accord.mono (h : s.Accord done done') {less : List (Mrn × Bool)} (hl : less <:+ done') : s.Accord done less :=
  fun m made tail made' tail' ht ht' => h m made tail made' tail' ht (ht'.trans hl)

section

variable {β : Type} {f : Draft → β × Draft} {out : β}

theorem Echo.same (hn : ∀ e ∈ log, ∀ ty, e.entries ty = [])
    (hf : ∀ seen t d', s.Earlier root path seen t → Beside t d d' → f d' = (out, d'.replay log)) :
    s.Echo root path f d out log := by
  intro seen t d' ht hb _
  refine ⟨log, hf seen t d' ht hb, .refl log, hb.same ?_⟩
  intro ty e he x hx
  rw [hn e he ty] at hx
  cases hx

theorem Echo.map {γ : Type} (g : β → γ) (h : s.Echo root path f d out log) :
    s.Echo root path (fun d => (g (f d).1, (f d).2)) d (g out) log := by
  intro seen t d' ht hb ha
  obtain ⟨log', heq, hthin, hb⟩ := h seen t d' ht hb ha
  exact ⟨log', by simp only [heq], hthin, hb⟩

theorem Echo.cons {α γ : Type} {step : α → Draft → Option γ × Draft} {a : α} {rest : List α} {b : Option γ} {bs : List γ}
    {log' : List Edit} (h : s.Echo root path (step a) d b log)
    (h' : s.Echo root path (gather step rest) (d.replay log) bs log') :
    s.Echo root path (gather step (a :: rest)) d (b.toList ++ bs) (log ++ log') := by
  intro seen t d' ht hb ha
  rw [Draft.replay_append] at ha
  obtain ⟨short, heq, hthin, hb⟩ := h seen t d' ht hb (ha.mono (Draft.ledger_suffix _ log' .policy))
  obtain ⟨short', heq', hthin', hb⟩ := h' seen t _ ht hb ha
  refine ⟨short ++ short', ?_, hthin.append hthin', ?_⟩
  · simp only [gather, heq, heq', Draft.replay_append]
  · rw [Draft.replay_append, Draft.replay_append]
    exact hb

end

theorem exists_suffix_of_mem {made : Bool} (hm : (m, made) ∈ done) : ∃ tail, (m, made) :: tail <:+ done := by
  obtain ⟨l, tail, hl⟩ := List.append_of_mem hm
  exact ⟨tail, l, hl.symm⟩

namespace Earlier

variable (h : s.Earlier root path seen t)
include h

theorem walked_mem (hm : m ∈ t.policies.map Prod.fst) (hp : s.Walked [m] p) : p.mrn ∈ t.policies.map Prod.fst := by
  obtain ⟨roots, d₀, ht⟩ := h.told
  induction hp with
  | root hn hp =>
    rw [Keyed.key_of_find? hp, List.mem_singleton.mp hn]
    exact hm
  | included hw hi ih =>
    obtain ⟨g, hg, r, hr, ha, hq⟩ := hi
    have hf := ht.followed _ ih _ hw.declared _ (Policy.mem_references_policy.mpr ⟨g, hg, hr⟩) ha _ hq
    rw [Keyed.key_of_find? hq]
    exact hf.resolve_right List.not_mem_nil

theorem followed (hm : m ∈ t.policies.map Prod.fst) (hp : s.Walked [m] p) :
    ∀ r ∈ p.references s.asset s.now, s.Followed [] t.policies seen p r := by
  have hmem := h.walked_mem hm hp
  obtain ⟨roots, d₀, ht⟩ := h.told
  exact ht.followed _ hmem _ hp.declared

theorem settled_riskFactor {made : Bool} (hs : .settle .riskFactor m made ∈ seen) : (m, made) ∈ t.riskFactors := by
  obtain ⟨roots, d₀, ht⟩ := h.told
  have hl := Draft.replay_ledger d₀ seen .riskFactor
  rw [← ht.eq] at hl
  have hmem : (m, made) ∈ t.ledger .riskFactor := by
    rw [hl]
    exact List.mem_append_left _ (List.mem_flatMap.mpr ⟨_, List.mem_reverse.mpr hs, List.mem_cons_self⟩)
  exact hmem

theorem settled (hm : m ∈ t.policies.map Prod.fst) (he : s.Lawful [m] done risks e) (ty : JobType) :
    ∀ x ∈ e.entries ty, x.1 ∈ (t.ledger ty).map Prod.fst := by
  cases he with
  | query hq he => simp [he.entries]
  | raising hp hf hk ha hr he =>
    simp only [Setting.raising, List.mem_cons, List.not_mem_nil, or_false] at he
    rcases he with rfl | rfl <;> cases ty <;> simp [Edit.entries]
  | settlePolicy made hp =>
    have hmem := h.walked_mem hm hp
    cases ty <;> simp only [Edit.entries, List.mem_singleton, forall_eq, List.not_mem_nil, false_implies, implies_true]
    exact hmem
  | settleRiskFactor made hp hf hk =>
    obtain ⟨⟨made', hs⟩, -⟩ := h.followed hm hp _ (Policy.mem_references_riskFactor.mpr ⟨_, hf, rfl⟩) _ hk
    have hmem := List.mem_map_of_mem (f := Prod.fst) (h.settled_riskFactor hs)
    cases ty <;> simp only [Edit.entries, List.mem_singleton, forall_eq, List.not_mem_nil, false_implies, implies_true]
    exact hmem
  | _ => cases ty <;> simp [Edit.entries]

theorem seen_or_silent (hm : m ∈ t.policies.map Prod.fst) (ha : s.Accord t.policies done)
    (he : s.Lawful [m] done risks e) : e ∈ seen ∨ e.isSilent = true := by
  cases he with
  | query hq hd => exact .inl (mem_log_of_referenced (fun p hp => h.followed hm hp) hq hd)
  | raising hp hf hk hraised hr he =>
    have hx := h.followed hm hp _ (Policy.mem_references_riskFactor.mpr ⟨_, hf, rfl⟩) _ hk
    exact .inl ((hx.2 hraised.1).2 hraised.2 _ he)
  | @policy p tail hp ht =>
    obtain ⟨⟨_, made⟩, hx, rfl⟩ := List.mem_map.mp (h.walked_mem hm hp)
    obtain ⟨tail', ht'⟩ := exists_suffix_of_mem hx
    obtain ⟨rfl, hl⟩ := ha _ _ _ _ _ ht' ht p hp.declared
    obtain ⟨roots, d₀, htold⟩ := h.told
    obtain ⟨q, hq, -, -, hs⟩ := htold.settled _ _ _ ht'
    obtain rfl := Option.some.inj (hp.declared.symm.trans hq)
    rw [← hl]
    exact .inl (hs rfl)
  | _ => exact .inr rfl

end Earlier

end Setting

end Compliance
