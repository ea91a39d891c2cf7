import Compliance.Proofs.Edits
import Mathlib.Data.List.Induction

/-!
Logs that fit the graph they meet: jobs with children stand above jobs that are already there, and a
structural job is new. Such a log keeps a graph linked both ways, every job on the way to code, and
every job below the root or below a link that is still to be hung up.
-/

namespace Compliance

namespace Graph

/-- One root, which has no parents, and edges that both ends know of and know once. -/
structure Linked (root : Identity) (g : Graph) : Prop where
  unique : g.Unique
  hasRoot : g.Holds root fun j => j.type = .root ∧ j.parents = []
  oneRoot : ∀ i, g.Holds i (fun j => j.type = .root) → i = root
  forth : ∀ i c, g.Edge i c → g.Parent c i
  back : ∀ c i, g.Parent c i → g.Edge i c
  children : ∀ i, ¬g.Holds i fun j => ¬(j.children.map Prod.fst).Nodup
  parents : ∀ i, ¬g.Holds i fun j => ¬j.parents.Nodup

def Supported (root : Identity) (g : Graph) : Prop :=
  ∀ i, g.Has i → i ≠ root → ∃ k m id, g.Reaches i k ∧ g.Backed k m id

def Covered (g : Graph) (tops : List Identity) : Prop := ∀ i, g.Has i → ∃ t ∈ tops, g.Reaches t i

variable {g : Graph} {root i k c : Identity} {type : JobType} {scoring : ScoringSystem}

theorem Linked.parents_root (h : g.Linked root) : ¬g.Parent root i := by
  intro hp
  obtain ⟨j, -, -, hj, -, hn⟩ := h.unique.holds_and hp h.hasRoot
  rw [hn] at hj
  simp at hj

theorem Linked.of_holds_iff {g' : Graph} (h : g.Linked root) (hu : g'.Unique)
    (hg : ∀ k (p : Job → Prop),
      (∀ j l ds o, p { j with mrns := l, datapoints := ds, origin := o } ↔ p j) → (g'.Holds k p ↔ g.Holds k p)) :
    g'.Linked root where
  unique := hu
  hasRoot := (hg _ _ fun _ _ _ _ => Iff.rfl).mpr h.hasRoot
  oneRoot i hi := h.oneRoot i ((hg _ _ fun _ _ _ _ => Iff.rfl).mp hi)
  forth i c he := (hg _ _ fun _ _ _ _ => Iff.rfl).mpr (h.forth i c ((hg _ _ fun _ _ _ _ => Iff.rfl).mp he))
  back c i hp := (hg _ _ fun _ _ _ _ => Iff.rfl).mpr (h.back c i ((hg _ _ fun _ _ _ _ => Iff.rfl).mp hp))
  children i hi := h.children i ((hg _ _ fun _ _ _ _ => Iff.rfl).mp hi)
  parents i hi := h.parents i ((hg _ _ fun _ _ _ _ => Iff.rfl).mp hi)

theorem Linked.ensure (h : g.Linked root) (ht : type ≠ .root) : (g.ensure i type scoring).Linked root where
  unique := ensure_unique h.unique
  hasRoot := ensure_holds.mpr (.inl h.hasRoot)
  oneRoot k hk := by
    rcases ensure_holds.mp hk with hk | ⟨-, -, hk⟩
    · exact h.oneRoot k hk
    · exact absurd hk ht
  forth k c he := ensure_parent.mpr (h.forth k c (ensure_edge.mp he))
  back c k hp := ensure_edge.mpr (h.back c k (ensure_parent.mp hp))
  children k hk := by
    rcases ensure_holds.mp hk with hk | ⟨-, -, hk⟩
    · exact h.children k hk
    · simp at hk
  parents k hk := by
    rcases ensure_holds.mp hk with hk | ⟨-, -, hk⟩
    · exact h.parents k hk
    · simp at hk

theorem Linked.connect {w : Impact} (h : g.Linked root) (hi : g.Has i) (hc : g.Has c) (hr : c ≠ root) :
    (g.connect i c w).Linked root := by
  by_cases he : g.Edge i c
  · rwa [connect_of_edge h.unique he]
  have hn : ¬g.Parent c i := fun hp => he (h.back c i hp)
  refine ⟨connect_unique h.unique, ?_, ?_, ?_, ?_, ?_, ?_⟩
  · rw [connect_holds h.unique he]
    simpa [hr.symm] using h.hasRoot
  · intro k hk
    exact h.oneRoot k ((connect_holds_of_iff h.unique fun _ _ _ => Iff.rfl).mp hk)
  · intro k l hk
    rcases (connect_edge h.unique).mp hk with hk | ⟨rfl, rfl, -⟩
    · exact (connect_parent h.unique).mpr (.inl (h.forth k l hk))
    · exact (connect_parent h.unique).mpr (.inr ⟨rfl, rfl, hc, he⟩)
  · intro l k hl
    rcases (connect_parent h.unique).mp hl with hl | ⟨rfl, rfl, -, -⟩
    · exact (connect_edge h.unique).mpr (.inl (h.back l k hl))
    · exact (connect_edge h.unique).mpr (.inr ⟨rfl, rfl, hi⟩)
  · intro k hk
    rw [connect_holds h.unique he] at hk
    obtain ⟨j, hj, hjk, hd⟩ := hk
    have hold : (j.children.map Prod.fst).Nodup := by
      by_contra hd
      exact h.children k ⟨j, hj, hjk, hd⟩
    apply hd
    by_cases hki : k = i
    · have hnew : c ∉ j.children.map Prod.fst := fun hm => he ⟨j, hj, hjk.trans hki, hm⟩
      simp only [hki, ↓reduceIte, List.map_append, List.map_cons, List.map_nil]
      exact List.nodup_append_comm.mp (List.nodup_cons.mpr ⟨hnew, hold⟩)
    · simpa [hki] using hold
  · intro k hk
    rw [connect_holds h.unique he] at hk
    obtain ⟨j, hj, hjk, hd⟩ := hk
    have hold : j.parents.Nodup := by
      by_contra hd
      exact h.parents k ⟨j, hj, hjk, hd⟩
    apply hd
    by_cases hkc : k = c
    · have hnew : i ∉ j.parents := fun hm => hn ⟨j, hj, hjk.trans hkc, hm⟩
      simp only [hkc, ↓reduceIte]
      exact List.nodup_append_comm.mp (List.nodup_cons.mpr ⟨hnew, hold⟩)
    · simpa [hkc] using hold

theorem Linked.connectAll (h : g.Linked root) (hi : g.Has i) {ls : List Link}
    (hl : ∀ l ∈ ls, g.Has l.1 ∧ l.1 ≠ root) : (g.connectAll i ls).Linked root := by
  induction ls generalizing g with
  | nil => exact h
  | cons l rest ih =>
    obtain ⟨hl₀, hr⟩ := hl l List.mem_cons_self
    apply ih (h.connect hi hl₀ hr) ((connect_has h.unique).mpr hi)
    intro x hx
    obtain ⟨hx, hxr⟩ := hl x (List.mem_cons_of_mem _ hx)
    exact ⟨(connect_has h.unique).mpr hx, hxr⟩

theorem Linked.addMrns {ms : List Mrn} (h : g.Linked root) : (g.addMrns i ms).Linked root :=
  h.of_holds_iff (addMrns_unique h.unique) fun _ _ hp => addMrns_holds fun j l => hp j l j.datapoints j.origin

theorem Linked.raise {ms : List Mrn} {ls : List Link} (h : g.Linked root) (ht : type ≠ .root)
    (hl : ∀ l ∈ ls, g.Has l.1 ∧ l.1 ≠ root) : (g.raise i type scoring ms ls).Linked root := by
  have hhas : ∀ {k}, ((g.ensure i type scoring).addMrns i ms).Has k ↔ g.Has k ∨ k = i := by
    intro k
    exact (addMrns_holds fun _ _ => Iff.rfl).trans ensure_has
  apply (h.ensure ht).addMrns.connectAll (hhas.mpr (.inr rfl))
  intro l hm
  exact ⟨hhas.mpr (.inl (hl l hm).1), (hl l hm).2⟩

theorem Linked.plant {ms : List Mrn} {m : Mrn} {id : CodeId} {cs : List Checksum} (h : g.Linked root)
    (ht : type ≠ .root) : (g.plant i type ms m id cs).Linked root :=
  (h.ensure ht).of_holds_iff (plant_unique h.unique) fun _ _ hp => plant_holds_of_iff hp

end Graph

def Edit.Fits (root : Identity) (g : Graph) : Edit → Prop
  | .leaf role q c _ => Draft.leafIdentity role q c ≠ root
  | .composite _ q vs => .mrn q.mrn ≠ root ∧ vs ≠ [] ∧ ∀ v ∈ vs, g.Has v.2.1 ∧ v.2.1 ≠ root
  | .structural m t _ ls =>
    t ≠ .root ∧ .mrn m ≠ root ∧ ¬g.Has (.mrn m) ∧ ls ≠ [] ∧ ∀ l ∈ ls, g.Has l.1 ∧ l.1 ≠ root
  | .connect p c _ => p = root ∧ g.Has root ∧ g.Has c ∧ c ≠ root
  | _ => True

namespace Graph

def Fitting (root : Identity) (g : Graph) : List Edit → Prop
  | [] => True
  | e :: rest => e.Fits root g ∧ Fitting root (e.draw g) rest

variable {g : Graph} {root i k c : Identity} {e : Edit} {log : List Edit} {tops : List Identity}

theorem fitting_append {log' : List Edit} : g.Fitting root (log ++ log') ↔
    g.Fitting root log ∧ (g.drawAll log).Fitting root log' := by
  induction log generalizing g with
  | nil => simp [Fitting]
  | cons e rest ih => simp [Fitting, ih, and_assoc]

theorem Linked.draw (h : g.Linked root) (hf : e.Fits root g) : (e.draw g).Linked root := by
  cases e with
  | leaf role q c above => cases role <;> exact h.plant (by simp [Role.jobType])
  | composite role q vs =>
    obtain ⟨-, hne, hvs⟩ := hf
    simp only [Edit.draw, List.isEmpty_iff, hne, ↓reduceIte]
    apply h.raise
    · cases role <;> simp [Role.jobType]
    · intro l hl
      obtain ⟨v, hv, rfl⟩ := List.mem_map.mp hl
      exact hvs v hv
  | structural m t sc ls =>
    obtain ⟨ht, -, -, hne, hls⟩ := hf
    simp only [Edit.draw, List.isEmpty_iff, hne, ↓reduceIte]
    exact h.raise ht hls
  | connect p c w =>
    obtain ⟨rfl, hp, hc, hr⟩ := hf
    exact h.connect hp hc hr
  | _ => exact h

theorem Linked.drawAll (h : g.Linked root) (hf : g.Fitting root log) : (g.drawAll log).Linked root := by
  induction log generalizing g with
  | nil => exact h
  | cons e rest ih => exact ih (h.draw hf.1) hf.2

end Graph

theorem Edit.Fits.grounded {root : Identity} {g : Graph} {e : Edit} (h : e.Fits root g) : e.Grounded g := by
  cases e with
  | connect p c w =>
    obtain ⟨rfl, hp, -⟩ := h
    exact hp
  | _ => trivial

namespace Graph

variable {g : Graph} {root i k c : Identity} {e : Edit} {log : List Edit} {tops : List Identity}

theorem Edge.draw (hu : g.Unique) (hf : e.Fits root g) (h : g.Edge i c) : (e.draw g).Edge i c :=
  (draw_edge hu hf.grounded).mpr (.inl h)

theorem Reaches.draw (hu : g.Unique) (hf : e.Fits root g) (h : g.Reaches i c) : (e.draw g).Reaches i c :=
  Relation.ReflTransGen.mono (fun _ _ h => Edge.draw hu hf h) _ _ h

theorem Has.draw (hu : g.Unique) (h : g.Has i) (e : Edit) : (e.draw g).Has i := (draw_has hu).mpr (.inl h)

theorem Has.drawAll (hu : g.Unique) (h : g.Has i) (log : List Edit) : (g.drawAll log).Has i :=
  (drawAll_has hu).mpr (.inl h)

theorem Backed.draw {m : Mrn} {id : CodeId} (hu : g.Unique) (h : g.Backed i m id) (e : Edit) :
    (e.draw g).Backed i m id :=
  (draw_backed hu).mpr (.inl h)

theorem exists_below_of_makes {t : JobType} {sc : ScoringSystem} (hu : g.Unique) (hf : e.Fits root g)
    (hm : e.Makes i t sc) :
    (∃ m id, (e.draw g).Backed i m id) ∨ ∃ c, (e.draw g).Edge i c ∧ g.Has c ∧ c ≠ root := by
  cases e with
  | leaf role q c above =>
    obtain ⟨rfl, -, -⟩ := hm
    have hb : ∃ m id, (g.drawAll [.leaf role q c above]).Backed (Draft.leafIdentity role q c) m id :=
      exists_backed_drawAll hu List.mem_cons_self ⟨rfl, rfl, rfl⟩
    exact .inl hb
  | composite role q vs =>
    obtain ⟨-, rfl, -, -⟩ := hm
    obtain ⟨-, hne, hvs⟩ := hf
    obtain ⟨v, hv⟩ := List.exists_mem_of_ne_nil vs hne
    refine .inr ⟨v.2.1, ?_, hvs v hv⟩
    simp only [Edit.draw, List.isEmpty_iff, hne, ↓reduceIte]
    exact (raise_edge hu).mpr (.inr ⟨rfl, List.mem_map.mpr ⟨v.2, List.mem_map_of_mem hv, rfl⟩⟩)
  | structural m t sc ls =>
    obtain ⟨-, rfl, -, -⟩ := hm
    obtain ⟨-, -, -, hne, hls⟩ := hf
    obtain ⟨l, hl⟩ := List.exists_mem_of_ne_nil ls hne
    refine .inr ⟨l.1, ?_, hls l hl⟩
    simp only [Edit.draw, List.isEmpty_iff, hne, ↓reduceIte]
    exact (raise_edge hu).mpr (.inr ⟨rfl, List.mem_map_of_mem hl⟩)
  | _ => exact hm.elim

theorem Supported.draw (hu : g.Unique) (h : g.Supported root) (hf : e.Fits root g) :
    (e.draw g).Supported root := by
  have old : ∀ {i}, g.Has i → i ≠ root → ∃ k m id, (e.draw g).Reaches i k ∧ (e.draw g).Backed k m id := by
    intro i hi hr
    obtain ⟨k, m, id, hk, hb⟩ := h i hi hr
    exact ⟨k, m, id, hk.draw hu hf, hb.draw hu e⟩
  intro i hi hr
  rcases (draw_has hu).mp hi with hi | ⟨t, sc, hm⟩
  · exact old hi hr
  · rcases exists_below_of_makes hu hf hm with ⟨m, id, hb⟩ | ⟨c, hc, hcg, hcr⟩
    · exact ⟨i, m, id, .refl, hb⟩
    · obtain ⟨k, m, id, hk, hb⟩ := old hcg hcr
      exact ⟨k, m, id, hk.head hc, hb⟩

theorem Supported.drawAll (hu : g.Unique) (h : g.Supported root) (hf : g.Fitting root log) :
    (g.drawAll log).Supported root := by
  induction log generalizing g with
  | nil => exact h
  | cons e rest ih => exact ih (draw_unique hu e) (h.draw hu hf.1) hf.2

end Graph

/-- A log that fits, and that leaves no job hanging if the caller hangs up the links. -/
structure Sketch (root : Identity) (g : Graph) (links : List Identity) (log : List Edit) : Prop where
  fitting : g.Fitting root log
  has : ∀ i ∈ links, (g.drawAll log).Has i ∧ i ≠ root
  covered : ∀ tops, g.Covered tops → (g.drawAll log).Covered (tops ++ links)

namespace Sketch

variable {root i : Identity} {g : Graph} {links links' : List Identity} {log log' : List Edit} {e : Edit}

theorem nil : Sketch root g [] [] where
  fitting := trivial
  has := by simp
  covered tops h := by simpa using h

theorem append (hu : g.Unique) (h : Sketch root g links log) (h' : Sketch root (g.drawAll log) links' log') :
    Sketch root g (links ++ links') (log ++ log') where
  fitting := Graph.fitting_append.mpr ⟨h.fitting, h'.fitting⟩
  has := by
    intro i hi
    rw [Graph.drawAll_append]
    rcases List.mem_append.mp hi with hi | hi
    · exact ⟨(h.has i hi).1.drawAll (Graph.drawAll_unique hu log) log', (h.has i hi).2⟩
    · exact h'.has i hi
  covered := by
    intro tops ht
    rw [Graph.drawAll_append, ← List.append_assoc]
    exact h'.covered _ (h.covered tops ht)

theorem known (hi : g.Has i) (hr : i ≠ root) : Sketch root g [i] [] where
  fitting := trivial
  has := by simpa using ⟨hi, hr⟩
  covered tops h k hk := by
    obtain ⟨t, ht, hr⟩ := h k hk
    exact ⟨t, List.mem_append_left _ ht, hr⟩

theorem idle (h : Sketch root g links log) (he : ∀ g, e.draw g = g) (hf : ∀ g, e.Fits root g) :
    Sketch root g links (log ++ [e]) where
  fitting := Graph.fitting_append.mpr ⟨h.fitting, hf _, trivial⟩
  has := by
    intro i hi
    rw [Graph.drawAll_append, Graph.drawAll_cons, he]
    exact h.has i hi
  covered := by
    intro tops ht
    rw [Graph.drawAll_append, Graph.drawAll_cons, he]
    exact h.covered tops ht

theorem leaf {role : Role} {q : Query} {c : Code} {above : Option Mrn} (hu : g.Unique)
    (hr : Draft.leafIdentity role q c ≠ root) :
    Sketch root g [Draft.leafIdentity role q c] [.leaf role q c above] := by
  have hf : (Edit.leaf role q c above).Fits root g := hr
  refine ⟨⟨hf, trivial⟩, ?_, ?_⟩
  · simpa using ⟨(Graph.draw_has hu).mpr (.inr ⟨_, _, rfl, rfl, rfl⟩), hr⟩
  · intro tops ht i hi
    rw [Graph.drawAll_cons, Graph.drawAll_nil] at hi ⊢
    rcases (Graph.draw_has hu).mp hi with hi | ⟨t, sc, rfl, -, -⟩
    · obtain ⟨t, ht, hr⟩ := ht i hi
      exact ⟨t, List.mem_append_left _ ht, hr.draw hu hf⟩
    · exact ⟨_, List.mem_append_right _ List.mem_cons_self, .refl⟩

theorem gathered (hu : g.Unique) (h : Sketch root g links log)
    (hf : e.Fits root (g.drawAll log)) (hr : i ≠ root) (hm : ∀ k, (∃ t sc, e.Makes k t sc) ↔ k = i)
    (hl : ∀ l ∈ links, (e.draw (g.drawAll log)).Edge i l) : Sketch root g [i] (log ++ [e]) := by
  have hu' := Graph.drawAll_unique hu log
  refine ⟨Graph.fitting_append.mpr ⟨h.fitting, hf, trivial⟩, ?_, ?_⟩
  · rw [Graph.drawAll_append, Graph.drawAll_cons, Graph.drawAll_nil]
    simpa using ⟨(Graph.draw_has hu').mpr (.inr ((hm i).mpr rfl)), hr⟩
  · intro tops ht k hk
    rw [Graph.drawAll_append, Graph.drawAll_cons, Graph.drawAll_nil] at hk ⊢
    rcases (Graph.draw_has hu').mp hk with hk | hk
    · obtain ⟨t, ht, hr⟩ := h.covered tops ht k hk
      rcases List.mem_append.mp ht with ht | ht
      · exact ⟨t, List.mem_append_left _ ht, hr.draw hu' hf⟩
      · exact ⟨i, List.mem_append_right _ List.mem_cons_self, (hr.draw hu' hf).head (hl t ht)⟩
    · obtain rfl := (hm k).mp hk
      exact ⟨k, List.mem_append_right _ List.mem_cons_self, .refl⟩

theorem composite {role : Role} {q : Query} {vs : List (Mrn × Link)} (hu : g.Unique)
    (h : Sketch root g (vs.map (·.2.1)) log) (hne : vs ≠ []) (hr : .mrn q.mrn ≠ root) :
    Sketch root g [.mrn q.mrn] (log ++ [.composite role q vs]) := by
  have hf : (Edit.composite role q vs).Fits root (g.drawAll log) :=
    ⟨hr, hne, fun v hv => h.has _ (List.mem_map_of_mem hv)⟩
  refine gathered hu h hf hr ?_ ?_
  · intro k
    simp [Edit.Makes, hne]
  · intro l hl
    simp only [Edit.draw, List.isEmpty_iff, hne, ↓reduceIte]
    refine (Graph.raise_edge (Graph.drawAll_unique hu log)).mpr (.inr ⟨rfl, ?_⟩)
    simpa [Function.comp_def] using hl

theorem structural {m : Mrn} (t : JobType) (sc : ScoringSystem) {ls : List Link} (hu : g.Unique)
    (h : Sketch root g (ls.map Prod.fst) log) (ht : t ≠ .root) (hne : ls ≠ []) (hr : .mrn m ≠ root)
    (hnew : ¬(g.drawAll log).Has (.mrn m)) :
    Sketch root g [.mrn m] (log ++ [.structural m t sc ls]) := by
  have hf : (Edit.structural m t sc ls).Fits root (g.drawAll log) :=
    ⟨ht, hr, hnew, hne, fun l hl => h.has _ (List.mem_map_of_mem hl)⟩
  refine gathered hu h hf hr ?_ ?_
  · intro k
    simp [Edit.Makes, hne]
  · intro l hl
    simp only [Edit.draw, List.isEmpty_iff, hne, ↓reduceIte]
    exact (Graph.raise_edge (Graph.drawAll_unique hu log)).mpr (.inr ⟨rfl, hl⟩)

end Sketch

def Draft.conclude (d : Draft) (t : JobType) (m : Mrn) (sc : ScoringSystem) (links : List Link) : Bool × Draft :=
  ((d.structural m t sc links).1, (d.structural m t sc links).2.settle t m (d.structural m t sc links).1)

def concluding (t : JobType) (m : Mrn) (sc : ScoringSystem) (links : List Link) : List Edit :=
  (if links.isEmpty then [] else [.structural m t sc links]) ++ [.settle t m !links.isEmpty]

section

variable {t : JobType} {m : Mrn} {sc : ScoringSystem} {links : List Link}

theorem mem_concluding {e : Edit} : e ∈ concluding t m sc links ↔
    links ≠ [] ∧ e = .structural m t sc links ∨ e = .settle t m !links.isEmpty := by
  cases links <;> simp [concluding]

theorem conclude_eq (d : Draft) :
    d.conclude t m sc links = (!links.isEmpty, d.replay (concluding t m sc links)) := by
  cases hl : links.isEmpty <;> simp [Draft.conclude, concluding, Draft.structural, hl, Draft.apply]

theorem concluding_ledger (d : Draft) (u : JobType) :
    (d.replay (concluding t m sc links)).ledger u = (Edit.settle t m !links.isEmpty).entries u ++ d.ledger u := by
  have hl : (d.replay (if links.isEmpty then [] else [.structural m t sc links])).ledger u = d.ledger u := by
    apply Draft.replay_ledger_of_forall
    intro e he
    split at he
    · cases he
    · rw [List.mem_singleton.mp he]
      cases u <;> rfl
  rw [concluding, Draft.replay_append, Draft.replay_cons, Draft.replay_nil, ← hl]
  exact Draft.apply_ledger ..

theorem concluding_sketch {root : Identity} {log : List Edit} {g : Graph} (hu : g.Unique) (ht : t ≠ .root)
    (hs : Sketch root g (links.map Prod.fst) log)
    (hn : links ≠ [] → .mrn m ≠ root ∧ ¬(g.drawAll log).Has (.mrn m)) :
    Sketch root g (if !links.isEmpty then [.mrn m] else []) (log ++ concluding t m sc links) := by
  by_cases hl : links = []
  · rw [hl] at hs ⊢
    exact hs.idle (e := .settle t m false) (fun _ => rfl) fun _ => trivial
  · obtain ⟨hr, hn⟩ := hn hl
    have hk := (hs.structural t sc hu ht hl hr hn).idle (e := .settle t m true) (fun _ => rfl) fun _ => trivial
    have he : links.isEmpty = false := List.isEmpty_eq_false_iff.mpr hl
    simpa [concluding, he, hl] using hk

end

structure Grown (root : Identity) (g : Graph) : Prop where
  linked : g.Linked root
  supported : g.Supported root
  covered : g.Covered [root]

def hanging (root : Identity) (links : List Link) : List Edit := links.map fun l => .connect root l.1 l.2

theorem drawAll_hanging (root : Identity) (g : Graph) (links : List Link) :
    g.drawAll (hanging root links) = g.connectAll root links := by
  simp only [Graph.drawAll, hanging, List.foldl_map]
  rfl

theorem hanging_fitting {root : Identity} {g : Graph} (hu : g.Unique) (hr : g.Has root) {links : List Link}
    (hl : ∀ l ∈ links, g.Has l.1 ∧ l.1 ≠ root) : g.Fitting root (hanging root links) := by
  induction links generalizing g with
  | nil => trivial
  | cons l rest ih =>
    obtain ⟨hc, hne⟩ := hl l List.mem_cons_self
    refine ⟨⟨rfl, hr, hc, hne⟩, ih (Graph.draw_unique hu _) (hr.draw hu _) ?_⟩
    intro x hx
    obtain ⟨hc, hne⟩ := hl x (List.mem_cons_of_mem _ hx)
    exact ⟨hc.draw hu _, hne⟩

theorem Grown.fitting {root : Identity} {g : Graph} (h : Grown root g) {links : List Link} {log : List Edit}
    (hs : Sketch root g (links.map Prod.fst) log) : g.Fitting root (log ++ hanging root links) := by
  have hu := h.linked.unique
  apply Graph.fitting_append.mpr
  refine ⟨hs.fitting, hanging_fitting (Graph.drawAll_unique hu log) (h.linked.hasRoot.has.drawAll hu log) ?_⟩
  exact fun l hl => hs.has _ (List.mem_map_of_mem hl)

theorem Grown.hang {root : Identity} {g : Graph} (h : Grown root g) {links : List Link} {log : List Edit}
    (hs : Sketch root g (links.map Prod.fst) log) : Grown root (g.drawAll (log ++ hanging root links)) := by
  have hu := h.linked.unique
  have hu' := Graph.drawAll_unique hu log
  have hfit := h.fitting hs
  have hroot : (g.drawAll log).Has root := h.linked.hasRoot.has.drawAll hu log
  refine ⟨h.linked.drawAll hfit, h.supported.drawAll hu hfit, ?_⟩
  rw [Graph.drawAll_append, drawAll_hanging]
  have hedge := fun {i k : Identity} => Graph.connectAll_edge (i := i) (k := k) hu' hroot links
  have hkept : ∀ {i c : Identity}, (g.drawAll log).Reaches i c → ((g.drawAll log).connectAll root links).Reaches i c :=
    fun hr => Relation.ReflTransGen.mono (fun _ _ he => hedge.mpr (.inl he)) _ _ hr
  intro i hi
  obtain ⟨t, ht, hr⟩ := hs.covered [root] h.covered i ((Graph.connectAll_holds_of_iff hu' links fun _ _ _ => Iff.rfl).mp hi)
  refine ⟨root, List.mem_cons_self, ?_⟩
  rcases List.mem_cons.mp ht with rfl | ht
  · exact hkept hr
  · exact (hkept hr).head (hedge.mpr (.inr ⟨rfl, ht⟩))

structure Visit {β : Type} (root : Identity) (f : Draft → β × Draft) (out : β) (links : List Identity)
    (draws : Edit → Prop) (log : List Edit) : Prop where
  eq : ∀ d, f d = (out, d.replay log)
  sound : ∀ e ∈ log, e.isNote = true ∨ draws e
  complete : ∀ e, draws e → e ∈ log
  sketch : ∀ g, g.Unique → Sketch root g links log

namespace Visit

variable {α β : Type} {root : Identity} {links : List Identity} {draws : Edit → Prop}

theorem idle {f : Draft → β × Draft} {out : β} {log : List Edit} (hf : ∀ d, f d = (out, d.replay log))
    (hn : ∀ e ∈ log, e.isNote = true) (hd : ∀ e, ¬draws e) : Visit root f out [] draws log where
  eq := hf
  sound e he := .inl (hn e he)
  complete e he := absurd he (hd e)
  sketch g _ := by
    clear hf
    induction log using List.reverseRecOn with
    | nil => exact .nil
    | append_singleton log e ih =>
      have he : e.isNote = true := hn e (by simp)
      obtain ⟨e, rfl⟩ : ∃ x, e = .note x := by
        cases e <;> simp [Edit.isNote] at he
        exact ⟨_, rfl⟩
      exact (ih fun x hx => hn x (by simp [hx])).idle (fun _ => rfl) fun _ => trivial

theorem congr {f : Draft → β × Draft} {out : β} {draws' : Edit → Prop} {log : List Edit}
    (h : Visit root f out links draws log) (hd : ∀ e, draws' e ↔ draws e) : Visit root f out links draws' log where
  eq := h.eq
  sound e he := (h.sound e he).imp id (hd e).mpr
  complete e he := h.complete e ((hd e).mp he)
  sketch := h.sketch

theorem gather {step : α → Draft → Option β × Draft} {out : α → Option β} {ident : β → Identity}
    {draws : α → Edit → Prop} {l : List α}
    (h : ∀ a ∈ l, ∃ log, Visit root (step a) (out a) ((out a).toList.map ident) (draws a) log) :
    ∃ log, Visit root (gather step l) (l.filterMap out) ((l.filterMap out).map ident)
      (fun e => ∃ a ∈ l, draws a e) log := by
  induction l with
  | nil => exact ⟨[], fun _ => rfl, by simp, by simp, fun _ _ => .nil⟩
  | cons a rest ih =>
    obtain ⟨log, hlog⟩ := h a List.mem_cons_self
    obtain ⟨log', hlog'⟩ := ih fun x hx => h x (List.mem_cons_of_mem _ hx)
    have hout : (a :: rest).filterMap out = (out a).toList ++ rest.filterMap out := by
      cases ho : out a <;> simp [ho]
    refine ⟨log ++ log', ?_, ?_, ?_, ?_⟩
    · intro d
      simp only [Compliance.gather, hlog.eq, hlog'.eq, Draft.replay_append, hout]
    · intro e he
      rcases List.mem_append.mp he with he | he
      · exact (hlog.sound e he).imp id fun hd => ⟨a, List.mem_cons_self, hd⟩
      · exact (hlog'.sound e he).imp id fun ⟨x, hx, hd⟩ => ⟨x, List.mem_cons_of_mem _ hx, hd⟩
    · rintro e ⟨x, hx, hd⟩
      rcases List.mem_cons.mp hx with rfl | hx
      · exact List.mem_append_left _ (hlog.complete e hd)
      · exact List.mem_append_right _ (hlog'.complete e ⟨x, hx, hd⟩)
    · intro g hu
      rw [hout, List.map_append]
      exact (hlog.sketch g hu).append hu (hlog'.sketch _ (Graph.drawAll_unique hu log))

theorem aboveNone {f : Draft → List (Mrn × Link) × Draft} {role : Role} {q : Query} {log : List Edit}
    (h : Visit root f [] [] draws log) : Visit root (fun d => (f d).2.above role q (f d).1) none [] draws log where
  eq d := by simp [h.eq, Draft.above]
  sound := h.sound
  complete := h.complete
  sketch := h.sketch

theorem above {f : Draft → List (Mrn × Link) × Draft} {role : Role} {q : Query} {vs : List (Mrn × Link)}
    {log : List Edit} (h : Visit root f vs (vs.map (·.2.1)) draws log) (hne : vs ≠ []) (hr : .mrn q.mrn ≠ root) :
    Visit root (fun d => (f d).2.above role q (f d).1) (some (.mrn q.mrn)) [.mrn q.mrn]
      (fun e => draws e ∨ e = .composite role q vs) (log ++ [.composite role q vs]) where
  eq d := by
    simp only [h.eq, Draft.replay_append, Draft.replay_cons, Draft.replay_nil, Draft.apply, Draft.above, List.isEmpty_iff,
      hne, ↓reduceIte]
  sound e he := by
    rcases List.mem_append.mp he with he | he
    · exact (h.sound e he).imp id .inl
    · exact .inr (.inr (List.mem_singleton.mp he))
  complete e he := by
    rcases he with he | rfl
    · exact List.mem_append_left _ (h.complete e he)
    · exact List.mem_append_right _ List.mem_cons_self
  sketch g hu := (h.sketch g hu).composite hu hne hr

end Visit

end Compliance
