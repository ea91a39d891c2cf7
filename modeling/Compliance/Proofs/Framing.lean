import Compliance.Proofs.Drawing

namespace Compliance

namespace Graph

def under (g : Graph) (top : Job) : Graph := ⟨top :: g.jobs⟩

variable {g pre post : Graph} {top j : Job} {i c : Identity}

theorem under_has : (g.under top).Has i ↔ i = top.identity ∨ g.Has i := by
  simp [Has, Holds, under, eq_comm]

theorem find?_under (h : i ≠ top.identity) : (g.under top).find? i = g.find? i := by
  have hi : (top.identity == i) = false := beq_eq_false_iff_ne.mpr h.symm
  rw [find?, under, List.find?_cons, hi, find?]

theorem modify_under (h : i ≠ top.identity) (f : Job → Job) : (g.under top).modify i f = (g.modify i f).under top := by
  simp [modify, under, h.symm]

theorem ensure_under (h : i ≠ top.identity) (type : JobType) (scoring : ScoringSystem) :
    (g.under top).ensure i type scoring = (g.ensure i type scoring).under top := by
  rw [ensure, find?_under h, ensure]
  split
  · rfl
  · rfl

theorem connect_under (hi : i ≠ top.identity) (hc : c ≠ top.identity) (w : Impact) :
    (g.under top).connect i c w = (g.connect i c w).under top := by
  rw [connect, hasEdge, find?_under hi, ← hasEdge, connect]
  split
  · rfl
  · rw [modify_under hi, modify_under hc]

theorem connectAll_under (hi : i ≠ top.identity) {ls : List (Identity × Impact)} (hl : ∀ l ∈ ls, l.1 ≠ top.identity) :
    (g.under top).connectAll i ls = (g.connectAll i ls).under top := by
  induction ls generalizing g with
  | nil => rfl
  | cons l rest ih =>
    have hstep : ∀ g : Graph, g.connectAll i (l :: rest) = (g.connect i l.1 l.2).connectAll i rest := fun _ => rfl
    rw [hstep, hstep, connect_under hi (hl l List.mem_cons_self), ih fun x hx => hl x (List.mem_cons_of_mem _ hx)]

end Graph

def Job.above (j : Job) (ls : List (Identity × Impact)) : Job := { j with children := ls }

def Edit.Avoids (i : Identity) : Edit → Prop
  | .leaf role q c _ => Draft.leafIdentity role q c ≠ i
  | .composite _ q vs => .mrn q.mrn ≠ i ∧ ∀ v ∈ vs, v.2.1 ≠ i
  | .structural m _ _ ls => .mrn m ≠ i ∧ ∀ l ∈ ls, l.1 ≠ i
  | .connect p c _ => p ≠ i ∧ c ≠ i
  | _ => True

namespace Graph

variable {g : Graph} {root i : Identity} {top : Job} {e : Edit} {log : List Edit}

theorem draw_under (h : e.Avoids top.identity) : e.draw (g.under top) = (e.draw g).under top := by
  cases e with
  | leaf role q c k =>
    rw [Edit.draw, plant, ensure_under h, addMrns, modify_under h, setOrigin, modify_under h, addDatapoints,
      modify_under h]
    rfl
  | composite role q vs =>
    simp only [Edit.draw]
    split
    · rfl
    · have hl : ∀ l ∈ vs.map Prod.snd, l.1 ≠ top.identity := by
        intro l hl
        obtain ⟨v, hv, rfl⟩ := List.mem_map.mp hl
        exact h.2 v hv
      rw [raise, ensure_under h.1, addMrns, modify_under h.1, connectAll_under h.1 hl]
      rfl
  | structural m t sc ls =>
    simp only [Edit.draw]
    split
    · rfl
    · rw [raise, ensure_under h.1, addMrns, modify_under h.1, connectAll_under h.1 h.2]
      rfl
  | connect p c w => exact connect_under h.1 h.2 w
  | _ => rfl

theorem drawAll_under (h : ∀ e ∈ log, e.Avoids top.identity) : (g.under top).drawAll log = (g.drawAll log).under top := by
  induction log generalizing g with
  | nil => rfl
  | cons e rest ih =>
    rw [drawAll_cons, drawAll_cons, draw_under (h e List.mem_cons_self), ih fun x hx => h x (List.mem_cons_of_mem _ hx)]

theorem avoids_root (h : e.Fits root g) (hc : ∀ p c w, e ≠ .connect p c w) : e.Avoids root := by
  cases e with
  | leaf role q c k => exact h
  | composite role q vs => exact ⟨h.1, fun v hv => (h.2.2 v hv).2⟩
  | structural m t sc ls => exact ⟨h.2.1, fun l hl => (h.2.2.2.2 l hl).2⟩
  | connect p c w => exact absurd rfl (hc p c w)
  | _ => trivial

theorem avoids_absent (hu : g.Unique) (h : e.Fits root g) (hi : ¬(e.draw g).Has i) : e.Avoids i := by
  have hold : ∀ {k}, g.Has k → k ≠ i := by
    rintro k hk rfl
    exact hi (hk.draw hu e)
  have hmade : ∀ {k t sc}, e.Makes k t sc → k ≠ i := by
    rintro k t sc hm rfl
    exact hi ((draw_has hu).mpr (.inr ⟨t, sc, hm⟩))
  cases e with
  | leaf role q c k => exact hmade ⟨rfl, rfl, rfl⟩
  | composite role q vs => exact ⟨hmade ⟨h.2.1, rfl, rfl, rfl⟩, fun v hv => hold (h.2.2 v hv).1⟩
  | structural m t sc ls => exact ⟨hmade ⟨h.2.2.2.1, rfl, rfl, rfl⟩, fun l hl => hold (h.2.2.2.2 l hl).1⟩
  | connect p c w =>
    obtain ⟨rfl, hp, hc, -⟩ := h
    exact ⟨hold hp, hold hc⟩
  | _ => trivial

theorem fitting_avoids_root (h : g.Fitting root log) (hc : ∀ e ∈ log, ∀ p c w, e ≠ .connect p c w) :
    ∀ e ∈ log, e.Avoids root := by
  induction log generalizing g with
  | nil => simp
  | cons e rest ih =>
    intro x hx
    rcases List.mem_cons.mp hx with rfl | hx
    · exact avoids_root h.1 (hc x List.mem_cons_self)
    · exact ih h.2 (fun y hy => hc y (List.mem_cons_of_mem _ hy)) x hx

theorem fitting_avoids_absent (hu : g.Unique) (h : g.Fitting root log) (hi : ¬(g.drawAll log).Has i) :
    ∀ e ∈ log, e.Avoids i := by
  induction log generalizing g with
  | nil => simp
  | cons e rest ih =>
    intro x hx
    rcases List.mem_cons.mp hx with rfl | hx
    · exact avoids_absent hu h.1 fun hn => hi (hn.drawAll (draw_unique hu x) rest)
    · exact ih (draw_unique hu e) h.2 hi x hx

theorem not_has_of_avoids (hu : g.Unique) (hi : ¬g.Has i) (h : ∀ e ∈ log, e.Avoids i) : ¬(g.drawAll log).Has i := by
  rw [drawAll_has hu]
  rintro (hg | ⟨e, he, t, sc, hm⟩)
  · exact hi hg
  · have ha := h e he
    cases e with
    | leaf role q c k => exact ha hm.1.symm
    | composite role q vs => exact ha.1 hm.2.1.symm
    | structural m t sc ls => exact ha.1 hm.2.1.symm
    | _ => exact hm

def newcomers (kids : List (Identity × Impact)) : List (Identity × Impact) → List (Identity × Impact)
  | [] => []
  | l :: rest => if kids.any (·.1 == l.1) then newcomers kids rest else l :: newcomers (kids ++ [l]) rest

theorem newcomers_subset (kids ls : List (Identity × Impact)) : newcomers kids ls ⊆ ls := by
  induction ls generalizing kids with
  | nil => exact List.Subset.refl _
  | cons l rest ih =>
    rw [newcomers]
    split
    · exact fun x hx => List.mem_cons_of_mem _ (ih kids hx)
    · exact List.cons_subset_cons l (ih (kids ++ [l]))

theorem newcomers_nil_eq_nil {ls : List (Identity × Impact)} : newcomers [] ls = [] ↔ ls = [] := by
  cases ls <;> simp [newcomers]

def acquaint (g : Graph) (i : Identity) (ls : List (Identity × Impact)) : Graph :=
  ls.foldl (fun g l => g.modify l.1 fun j => { j with parents := j.parents ++ [i] }) g

theorem modify_absent (h : ¬g.Has i) (f : Job → Job) : g.modify i f = g := by
  have hid : ∀ j ∈ g.jobs, (if j.identity = i then f j else j) = j := by
    intro j hj
    exact if_neg fun hi => h ⟨j, hj, hi, trivial⟩
  simp only [modify]
  rw [List.map_congr_left hid, List.map_id']

theorem modify_has {k : Identity} {f : Job → Job} (hf : ∀ j, (f j).identity = j.identity) :
    (g.modify i f).Has k ↔ g.Has k :=
  modify_holds_of_iff hf fun _ => Iff.rfl

theorem acquaint_has {k : Identity} {ls : List (Identity × Impact)} : (g.acquaint i ls).Has k ↔ g.Has k := by
  induction ls generalizing g with
  | nil => rfl
  | cons l rest ih => exact ih.trans (modify_has fun _ => rfl)

theorem acquaint_under {ls : List (Identity × Impact)} (h : ∀ l ∈ ls, l.1 ≠ top.identity) :
    (g.under top).acquaint i ls = (g.acquaint i ls).under top := by
  induction ls generalizing g with
  | nil => rfl
  | cons l rest ih =>
    have hstep : ∀ g : Graph, g.acquaint i (l :: rest) =
        (g.modify l.1 fun j => { j with parents := j.parents ++ [i] }).acquaint i rest := fun _ => rfl
    rw [hstep, hstep, modify_under (h l List.mem_cons_self), ih fun x hx => h x (List.mem_cons_of_mem _ hx)]

section

variable {pre post : Graph} {j : Job}

def amid (pre post : Graph) (j : Job) : Graph := ⟨pre.jobs ++ j :: post.jobs⟩

theorem modify_amid (f : Job → Job) : (amid pre post j).modify i f =
    amid (pre.modify i f) (post.modify i f) (if j.identity = i then f j else j) := by
  simp [amid, modify]

theorem find?_amid (hpre : ¬pre.Has j.identity) : (amid pre post j).find? j.identity = some j := by
  have hnone : pre.jobs.find? (·.identity == j.identity) = none := by
    apply List.find?_eq_none.mpr
    intro k hk hi
    exact hpre ⟨k, hk, by simpa using hi, trivial⟩
  simp [find?, amid, hnone]

theorem connect_amid (hpre : ¬pre.Has j.identity) (hpost : ¬post.Has j.identity) {c : Identity} (hc : c ≠ j.identity)
    (w : Impact) : (amid pre post j).connect j.identity c w =
      if j.children.any (·.1 == c) then amid pre post j
      else amid (pre.modify c fun k => { k with parents := k.parents ++ [j.identity] })
        (post.modify c fun k => { k with parents := k.parents ++ [j.identity] })
        { j with children := j.children ++ [(c, w)] } := by
  have hedge : (amid pre post j).hasEdge j.identity c = j.children.any (·.1 == c) := by
    rw [hasEdge, find?_amid hpre]
  rw [connect, hedge]
  split
  · rfl
  · simp only [modify_amid, ↓reduceIte, modify_absent hpre, modify_absent hpost, hc.symm]

theorem connectAll_amid (hpre : ¬pre.Has j.identity) (hpost : ¬post.Has j.identity) {ls : List (Identity × Impact)}
    (hl : ∀ l ∈ ls, l.1 ≠ j.identity) : (amid pre post j).connectAll j.identity ls =
      amid (pre.acquaint j.identity (newcomers j.children ls)) (post.acquaint j.identity (newcomers j.children ls))
        { j with children := j.children ++ newcomers j.children ls } := by
  induction ls generalizing pre post j with
  | nil => simp [connectAll, newcomers, acquaint]
  | cons l rest ih =>
    have hstep : (amid pre post j).connectAll j.identity (l :: rest) =
        ((amid pre post j).connect j.identity l.1 l.2).connectAll j.identity rest := rfl
    have hrest : ∀ x ∈ rest, x.1 ≠ j.identity := fun x hx => hl x (List.mem_cons_of_mem _ hx)
    rw [hstep, connect_amid hpre hpost (hl l List.mem_cons_self), newcomers]
    split
    · exact ih hpre hpost hrest
    · have hkeep : ∀ {g : Graph}, ¬g.Has j.identity →
          ¬(g.modify l.1 fun k => { k with parents := k.parents ++ [j.identity] }).Has j.identity := by
        intro g hg
        rwa [modify_has]
        exact fun _ => rfl
      have hnext := ih (j := { j with children := j.children ++ [(l.1, l.2)] }) (hkeep hpre) (hkeep hpost) hrest
      simpa [acquaint] using hnext

theorem acquaint_empty (ls : List (Identity × Impact)) : ({} : Graph).acquaint i ls = {} := by
  induction ls with
  | nil => rfl
  | cons l rest ih => exact ih

theorem not_has_empty : ¬({} : Graph).Has i := by
  rintro ⟨j, hj, -⟩
  cases hj

theorem connectAll_top (hg : ¬g.Has top.identity) (hc : top.children = []) {ls : List (Identity × Impact)}
    (hl : ∀ l ∈ ls, l.1 ≠ top.identity) : (g.under top).connectAll top.identity ls =
      (g.acquaint top.identity (newcomers [] ls)).under (top.above (newcomers [] ls)) := by
  have h : (amid {} g top).connectAll top.identity ls = _ := connectAll_amid not_has_empty hg hl
  rwa [hc, List.nil_append, acquaint_empty] at h

theorem apart_of_not_has (hi : ¬g.Has i) : ∀ j ∈ g.jobs, j.identity ≠ i :=
  fun j hj he => hi ⟨j, hj, he, trivial⟩

theorem raise_absent (h : ¬g.Has i) {ls : List (Identity × Impact)} (hl : ∀ l ∈ ls, l.1 ≠ i) (type : JobType)
    (scoring : ScoringSystem) (ms : List Mrn) : g.raise i type scoring ms ls = amid (g.acquaint i (newcomers [] ls)) {}
      { identity := i, type := type, scoring := scoring, mrns := appendNew [] ms, children := newcomers [] ls } := by
  have hensure : g.ensure i type scoring = amid g {} { identity := i, type := type, scoring := scoring } := by
    simp [ensure, amid, find?_isSome_eq_false h]
  have hmrns : (g.ensure i type scoring).addMrns i ms =
      amid g {} { identity := i, type := type, scoring := scoring, mrns := appendNew [] ms } := by
    rw [hensure, addMrns, modify_amid, modify_absent h, modify_absent not_has_empty]
    simp only [↓reduceIte]
  have hlinks := connectAll_amid (j := { identity := i, type := type, scoring := scoring, mrns := appendNew [] ms })
    h not_has_empty hl
  rw [raise, hmrns, hlinks, acquaint_empty]
  rfl

theorem raise_under (hi : i ≠ top.identity) (hg : ¬g.Has i) (ht : ¬g.Has top.identity) (hc : top.children = [])
    {ls : List (Identity × Impact)} (hl : ∀ l ∈ ls, l.1 ≠ i ∧ l.1 ≠ top.identity) (type : JobType) (sc : ScoringSystem)
    (ms : List Mrn) (w : Impact) : ((g.under top).raise i type sc ms ls).connect top.identity i w =
      (amid (g.acquaint i (newcomers [] ls)) {} {
        identity := i, type := type, scoring := sc, mrns := appendNew [] ms, children := newcomers [] ls
        parents := [top.identity] }).under (top.above [(i, w)]) := by
  have hacq : ∀ {k}, (g.acquaint i (newcomers [] ls)).Has k ↔ g.Has k := acquaint_has
  obtain ⟨kid, hkid⟩ : ∃ kid : Job, kid = {
    identity := i, type := type, scoring := sc, mrns := appendNew [] ms, children := newcomers [] ls } := ⟨_, rfl⟩
  have hraise : (g.under top).raise i type sc ms ls = (amid (g.acquaint i (newcomers [] ls)) {} kid).under top := by
    rw [raise_absent (by simp [under_has, hi, hg]) fun l h => (hl l h).1, ← hkid,
      acquaint_under fun l h => (hl l (newcomers_subset _ _ h)).2]
    rfl
  have htop : ¬(amid (g.acquaint i (newcomers [] ls)) {} kid).Has top.identity := by
    rintro ⟨j, hj, he, -⟩
    rcases List.mem_append.mp hj with hj | hj
    · exact ht (hacq.mp ⟨j, hj, he, trivial⟩)
    · rw [List.mem_singleton.mp hj, hkid] at he
      exact hi he
  have hhung : (amid (g.acquaint i (newcomers [] ls)) {} kid).acquaint top.identity [(i, w)] =
      amid (g.acquaint i (newcomers [] ls)) {} { kid with parents := [top.identity] } := by
    rw [acquaint, List.foldl_cons, List.foldl_nil, modify_amid, modify_absent (hacq.not.mpr hg),
      modify_absent not_has_empty, hkid]
    simp only [↓reduceIte, List.nil_append]
  have hconnect : (under _ top).connectAll top.identity [(i, w)] = _ := connectAll_top htop hc (by simpa using hi)
  rw [hraise]
  refine hconnect.trans (congrArg (under · (top.above [(i, w)])) (hhung.trans ?_))
  rw [hkid]

end

end Graph

end Compliance
