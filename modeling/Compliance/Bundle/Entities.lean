import Compliance.Ordered.NameSet
import Compliance.Terms

namespace Compliance

structure Code where
  id : CodeId
  source : String := ""
  entrypoints : List Checksum := []
  datapoints : List Checksum := []
  deriving DecidableEq

def appendNew {α : Type} [BEq α] (l new : List α) : List α :=
  new.foldl (fun l a => if l.contains a then l else l ++ [a]) l

section

variable {α : Type} [BEq α] {l new : List α} {a : α}

theorem appendNew_append {more : List α} : appendNew (appendNew l new) more = appendNew l (new ++ more) :=
  List.foldl_append.symm

variable [LawfulBEq α]

theorem mem_appendNew : a ∈ appendNew l new ↔ a ∈ l ∨ a ∈ new := by
  induction new generalizing l with
  | nil => simp [appendNew]
  | cons b rest ih =>
    refine (ih (l := if l.contains b then l else l ++ [b])).trans ?_
    by_cases hb : b ∈ l
    · simp only [List.contains_iff_mem, hb, ↓reduceIte, List.mem_cons]
      grind
    · simp [hb, or_assoc]

theorem appendNew_nodup (h : l.Nodup) : (appendNew l new).Nodup := by
  induction new generalizing l with
  | nil => exact h
  | cons b rest ih =>
    refine ih (l := if l.contains b then l else l ++ [b]) ?_
    by_cases hb : b ∈ l
    · simpa [hb] using h
    · simp only [List.contains_iff_mem, hb, ↓reduceIte]
      exact List.nodup_append.mpr ⟨h, by simp, by grind⟩

theorem appendNew_of_subset (h : ∀ b ∈ new, b ∈ l) : appendNew l new = l := by
  induction new with
  | nil => rfl
  | cons b rest ih =>
    rw [appendNew, List.foldl_cons, if_pos (List.contains_iff_mem.mpr (h b List.mem_cons_self))]
    exact ih fun x hx => h x (List.mem_cons_of_mem _ hx)

theorem appendNew_of_nodup (h : (l ++ new).Nodup) : appendNew l new = l ++ new := by
  induction new generalizing l with
  | nil => simp [appendNew]
  | cons b rest ih =>
    have hb : b ∉ l := fun hm => (List.nodup_append.mp h).2.2 b hm b List.mem_cons_self rfl
    rw [appendNew, List.foldl_cons, if_neg fun hc => hb (List.contains_iff_mem.mp hc)]
    refine (ih (l := l ++ [b]) ?_).trans ?_
    · simpa using h
    · simp

theorem appendNew_eq : appendNew l new = l ++ (new.filter fun b => !l.contains b).eraseDups := by
  induction new generalizing l with
  | nil => simp [appendNew]
  | cons b rest ih =>
    by_cases hb : l.contains b = true
    · rw [appendNew, List.foldl_cons, if_pos hb, List.filter_cons_of_neg (by simpa using hb)]
      exact ih
    · rw [appendNew, List.foldl_cons, if_neg hb, List.filter_cons_of_pos (by simpa using hb), List.eraseDups_cons,
        List.filter_filter]
      refine (ih (l := l ++ [b])).trans ?_
      rw [List.append_assoc, List.singleton_append]
      refine congrArg (fun rest => l ++ b :: rest.eraseDups) (List.filter_congr fun x _ => ?_)
      rw [List.contains_append, List.contains_cons, List.contains_nil, Bool.or_false, Bool.not_or, Bool.and_comm]

end

def Code.checksums (c : Code) : List Checksum := appendNew [] (c.entrypoints ++ c.datapoints)

theorem Code.checksums_nodup (c : Code) : c.checksums.Nodup := appendNew_nodup List.nodup_nil

structure Property where
  name : String
  mrn : Mrn
  deriving DecidableEq

structure Query where
  mrn : Mrn
  title : Option String := none
  code : Option Code := none
  required : List PredicateId := []
  variants : List Mrn := []
  properties : List Property := []
  deriving DecidableEq

def Query.isComposite (q : Query) : Bool := !q.variants.isEmpty

structure QueryRef where
  mrn : Mrn
  action : Action := .unspecified
  impact : Option UInt32 := none
  deriving DecidableEq

structure PolicyRef where
  mrn : Mrn
  action : Action := .unspecified
  scoring : Option ScoringSystem := none
  deriving DecidableEq

structure RiskFactorRef where
  mrn : Mrn
  action : Action := .unspecified
  magnitude : Option Float32 := none
  deriving DecidableEq

structure FrameworkRef where
  mrn : Mrn
  action : Action := .unspecified
  deriving DecidableEq

structure GroupTerms where
  type : GroupType := .content
  review : ReviewStatus := .unspecified
  start : Timestamp := 0
  stop : Timestamp := 0
  deriving DecidableEq

structure PolicyGroup extends GroupTerms where
  uid : Option String := none
  required : List PredicateId := []
  checks : List QueryRef := []
  queries : List QueryRef := []
  policies : List PolicyRef := []
  riskFactors : List RiskFactorRef := []
  deriving DecidableEq

structure Policy where
  mrn : Mrn
  owner : Mrn := ""
  title : Option String := none
  scoring : ScoringSystem := .unspecified
  groups : List PolicyGroup := []
  riskFactors : List RiskFactorRef := []
  deriving DecidableEq

structure FrameworkGroup extends GroupTerms where
  uid : Option String := none
  controls : List Mrn := []
  deriving DecidableEq

structure Framework where
  mrn : Mrn
  title : Option String := none
  dependencies : List FrameworkRef := []
  groups : List FrameworkGroup := []
  deriving DecidableEq

structure ControlMap where
  mrn : Mrn
  checks : List QueryRef := []
  queries : List QueryRef := []
  controls : List Mrn := []
  deriving DecidableEq

structure FrameworkMap where
  mrn : Mrn
  framework : Mrn
  policies : List Mrn := []
  controls : List ControlMap := []
  deriving DecidableEq

structure RiskFactor where
  mrn : Mrn
  title : Option String := none
  magnitude : Float32 := 0
  action : Action := .unspecified
  required : List PredicateId := []
  checks : List QueryRef := []
  deriving DecidableEq

abbrev PredicateSet := NameSet

/-- Nothing required is always met; otherwise one of the required predicates is enough. -/
def PredicateSet.meets (asset : PredicateSet) (required : List PredicateId) : Bool :=
  required.isEmpty || required.any (NameSet.contains asset)

def GroupTerms.inForce (g : GroupTerms) (now : Timestamp) : Bool :=
  g.review.allows g.type && g.start.isFrom now && g.stop.isUntil now

def PolicyGroup.applies (g : PolicyGroup) (asset : PredicateSet) (now : Timestamp) : Bool :=
  g.inForce now && asset.meets g.required

namespace Policy

def applicable (p : Policy) (asset : PredicateSet) (now : Timestamp) : List PolicyGroup :=
  p.groups.filter (·.applies asset now)

def contentGroups (p : Policy) (asset : PredicateSet) (now : Timestamp) : List PolicyGroup :=
  (p.applicable asset now).filter (!·.type.isModifier)

def modifierGroups (p : Policy) (asset : PredicateSet) (now : Timestamp) : List PolicyGroup :=
  (p.applicable asset now).filter (·.type.isModifier)

end Policy

namespace Framework

def contentGroups (f : Framework) (now : Timestamp) : List FrameworkGroup :=
  f.groups.filter fun g => !g.type.isModifier && g.inForce now

def modifierGroups (f : Framework) (now : Timestamp) : List FrameworkGroup :=
  f.groups.filter fun g => g.type.isModifier && g.inForce now

end Framework

end Compliance
