import Compliance.Proofs.Crew

namespace Compliance

namespace Worker

variable {w w' : Worker} {serial : Nat} {i : QueueItem} {m : Move}

def muted (w : Worker) : Worker := { w with outlet := {} }

theorem eq_of_muted (h : w.muted = w'.muted) : w' = { w with outlet := w'.outlet } := by
  obtain ⟨outlet, latches, kept, stopping, stopsAtPause, invoked, events⟩ := w
  obtain ⟨outlet', latches', kept', stopping', stopsAtPause', invoked', events'⟩ := w'
  simp only [muted, Worker.mk.injEq, true_and] at h
  obtain ⟨rfl, rfl, rfl, rfl, rfl, rfl⟩ := h
  rfl

theorem report_congr (h : w.muted = w'.muted) (n : Nat) (key : Checksum) (data : RawData) :
    (w.report n key data).muted = (w'.report n key data).muted := by
  rw [eq_of_muted h]
  rfl

theorem reportEach_congr (h : w.muted = w'.muted) (n : Nat) (keys : List Checksum) (data : RawData) :
    (w.reportEach n keys data).muted = (w'.reportEach n keys data).muted := by
  induction keys generalizing w w' with
  | nil => exact h
  | cons k rest ih => exact ih (report_congr h n k data)

theorem calls_congr (h : w.muted = w'.muted) : w.calls serial i m = w'.calls serial i m := by
  rw [eq_of_muted h]
  cases m <;> rfl

theorem act_congr (h : w.muted = w'.muted) : (w.act serial i m).muted = (w'.act serial i m).muted := by
  cases m with
  | reportAll => exact reportEach_congr h _ _ _
  | late name key data =>
    have hkept : w.kept = w'.kept := by rw [eq_of_muted h]
    simp only [act, hkept]
    cases w'.kept.lookup name with
    | none => exact h
    | some n => exact report_congr h n key data
  | fail context => exact h
  | panic text => exact h
  | _ =>
    rw [eq_of_muted h]
    rfl

theorem performCalls_congr {moves : List Move} (h : w.muted = w'.muted) :
    performCalls serial i moves w = performCalls serial i moves w' := by
  induction moves generalizing w w' with
  | nil => rfl
  | cons m rest ih =>
    cases he : m.ends with
    | false => rw [performCalls_cons he, performCalls_cons he, calls_congr h, ih (act_congr h)]
    | true =>
      cases m with
      | fail context => rfl
      | panic text => rfl
      | _ => cases he

theorem wrapUp_congr (h : w.muted = w'.muted) (config : Config) (serial : Nat) (i : QueueItem) :
    (w.wrapUp config serial i).1 = (w'.wrapUp config serial i).1 ∧
      (w.wrapUp config serial i).2.muted = (w'.wrapUp config serial i).2.muted := by
  have hmeasure : (w.measure config).muted = (w'.measure config).muted := by
    rw [eq_of_muted h]
    unfold measure
    split <;> rfl
  unfold wrapUp
  dsimp only
  rw [eq_of_muted hmeasure]
  generalize w.measure config = v
  generalize (w'.measure config).outlet = o
  by_cases hempty : (v.latch serial).pending.isEmpty = true
  · have hempty' : ((latch { v with outlet := o } serial).pending).isEmpty = true := hempty
    rw [if_pos hempty, if_pos hempty']
    refine ⟨rfl, ?_⟩
    dsimp only
    split <;> rfl
  · have hempty' : ¬((latch { v with outlet := o } serial).pending).isEmpty = true := hempty
    rw [if_neg hempty, if_neg hempty']
    dsimp only
    split
    · exact ⟨rfl, rfl⟩
    · exact ⟨rfl, rfl⟩

end Worker

def Deed.isDrop : Deed → Bool
  | .drop => true
  | _ => false

namespace Crew

variable {s s' t : Crew} {d : Deed} {deeds : List Deed}

def muted (s : Crew) : Crew := { s with manager := { s.manager with worker := s.manager.worker.muted } }

def through (s : Crew) (o : Outlet) : Crew :=
  { s with manager := { s.manager with worker := { s.manager.worker with outlet := o } } }

theorem exists_through (h : s.muted = t.muted) : ∃ o, t = s.through o := by
  obtain ⟨⟨config, runtime, queue, queueOpen, handle, stopped, worker, errors⟩, posts, held, stopping, joining, begun, log⟩ := s
  obtain ⟨⟨config', runtime', queue', queueOpen', handle', stopped', worker', errors'⟩, posts', held', stopping', joining',
    begun', log'⟩ := t
  simp only [muted, Crew.mk.injEq, Manager.mk.injEq] at h
  obtain ⟨⟨rfl, rfl, rfl, rfl, rfl, rfl, hw, rfl⟩, rfl, rfl, rfl, rfl, rfl, rfl⟩ := h
  exact ⟨worker'.outlet, by rw [Worker.eq_of_muted hw]; rfl⟩

theorem Turn.through (h : s.Turn d s') (o : Outlet) : ∃ t', (s.through o).Turn d t' ∧ s'.muted = t'.muted := by
  have hw : s.manager.worker.muted = (s.through o).manager.worker.muted := rfl
  cases h with
  | spawn hj hh =>
    refine ⟨_, .spawn hj hh, ?_⟩
    simp only [Crew.spawn, Manager.start, Crew.through, Crew.muted]
    split <;> rfl
  | keep hj hh => exact ⟨_, .keep hj hh, rfl⟩
  | signal => exact ⟨_, .signal, rfl⟩
  | take hj hs => exact ⟨_, .take hj hs, rfl⟩
  | join hj hp => exact ⟨_, .join hj hp, rfl⟩
  | send i hopen => exact ⟨_, .send i hopen, rfl⟩
  | close => exact ⟨_, .close, rfl⟩
  | drop => exact ⟨_, .drop, rfl⟩
  | look hp => exact ⟨_, .look hp, rfl⟩
  | @pick n i rest hp hq =>
    refine ⟨_, .pick hp hq, ?_⟩
    simp only [Crew.begin, Worker.begin, Crew.through, Crew.muted]
    split <;> rfl
  | leave hp hend => exact ⟨_, .leave hp hend, rfl⟩
  | act hp hf =>
    refine ⟨_, .act hp hf, ?_⟩
    simp only [Crew.act, Crew.muted, Worker.act_congr hw, Worker.calls_congr hw]
    rfl
  | halt hp hf => exact ⟨_, .halt hp hf, rfl⟩
  | @settle n serial i hp =>
    obtain ⟨hmissing, hmuted⟩ := Worker.wrapUp_congr hw s.manager.config serial i
    refine ⟨_, .settle hp, ?_⟩
    simp only [Crew.settle, Crew.muted, hmissing, hmuted]
    rfl
  | finish hp => exact ⟨_, .finish hp, rfl⟩
  | report hp => exact ⟨_, .report hp, rfl⟩

theorem exists_step (h : s.muted = t.muted) (hs : s.step d = some s') : ∃ t', t.step d = some t' ∧ s'.muted = t'.muted := by
  obtain ⟨o, rfl⟩ := exists_through h
  obtain ⟨t', hturn, hmuted⟩ := (turn_of_step hs).through o
  exact ⟨t', step_of_turn hturn, hmuted⟩

theorem exists_run_undropped (h : s.muted = t.muted) (hs : s.run deeds = some s') :
    ∃ t', t.run (deeds.filter (!·.isDrop)) = some t' ∧ s'.muted = t'.muted := by
  induction deeds generalizing s t with
  | nil => exact ⟨t, rfl, Option.some.inj hs ▸ h⟩
  | cons d rest ih =>
    obtain ⟨mid, hmid, hrest⟩ := run_cons.mp hs
    cases hd : d.isDrop with
    | true =>
      have hsame : mid.muted = s.muted := by
        cases d with
        | drop => exact Option.some.inj hmid ▸ rfl
        | _ => cases hd
      obtain ⟨t', ht', hlast⟩ := ih (hsame.trans h) hrest
      exact ⟨t', by simpa [hd] using ht', hlast⟩
    | false =>
      obtain ⟨mid', hmid', hmuted⟩ := exists_step h hmid
      obtain ⟨t', ht', hlast⟩ := ih hmuted hrest
      refine ⟨t', ?_, hlast⟩
      rw [List.filter_cons_of_pos (by simp [hd])]
      exact run_cons.mpr ⟨mid', hmid', ht'⟩

end Crew

end Compliance
