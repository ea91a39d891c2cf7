import Compliance.Execution.Config
import Mathlib.Data.List.Induction
import Mathlib.Data.List.TakeWhile
import Mathlib.Tactic.Common

namespace Compliance

namespace Text

variable {s t lead rest : List Char} {c : Char}

def Padded (s t : List Char) : Prop :=
  ∃ lead trail, s = lead ++ t ++ trail ∧ (∀ c ∈ lead, isBlank c = true) ∧ ∀ c ∈ trail, isBlank c = true

theorem padded_trim (s : List Char) : Padded s (trim s) := by
  refine ⟨s.takeWhile isBlank, ((s.dropWhile isBlank).reverse.takeWhile isBlank).reverse, ?_, ?_, ?_⟩
  · rw [trim, List.append_assoc, ← List.reverse_append, List.takeWhile_append_dropWhile, List.reverse_reverse,
      List.takeWhile_append_dropWhile]
  · exact fun c hc => List.mem_takeWhile_imp hc
  · exact fun c hc => List.mem_takeWhile_imp (List.mem_reverse.mp hc)

theorem dropWhile_isBlank (hlead : ∀ c ∈ lead, isBlank c = true) (hne : t ≠ []) (ht : ∀ c ∈ t, isBlank c = false) :
    (lead ++ t ++ rest).dropWhile isBlank = t ++ rest := by
  obtain ⟨c, t, rfl⟩ := List.exists_cons_of_ne_nil hne
  rw [List.append_assoc, List.dropWhile_append_of_pos hlead, List.cons_append,
    List.dropWhile_cons_of_neg (Bool.eq_false_iff.mp (ht c List.mem_cons_self))]

theorem trim_eq_of_padded (h : Padded s t) (hne : t ≠ []) (ht : ∀ c ∈ t, isBlank c = false) : trim s = t := by
  obtain ⟨lead, trail, rfl, hlead, htrail⟩ := h
  have hback : (t ++ trail).reverse = trail.reverse ++ t.reverse ++ [] := by simp
  rw [trim, dropWhile_isBlank hlead hne ht, hback, dropWhile_isBlank, List.append_nil, List.reverse_reverse]
  · exact fun c hc => htrail c (List.mem_reverse.mp hc)
  · exact mt List.reverse_eq_nil_iff.mp hne
  · exact fun c hc => ht c (List.mem_reverse.mp hc)

theorem trim_eq_iff (hne : t ≠ []) (ht : ∀ c ∈ t, isBlank c = false) : trim s = t ↔ Padded s t :=
  ⟨fun h => h ▸ padded_trim s, fun h => trim_eq_of_padded h hne ht⟩

end Text

namespace Config

variable {s : List Char} {n : Nat} {c : Char} {raw : String}

inductive Digits : List Char → Nat → Prop
  | one (d : Fin 10) : Digits [Nat.digitChar d] d
  | more (d : Fin 10) {s : List Char} {n : Nat} (h : Digits s n) : Digits (s ++ [Nat.digitChar d]) (10 * n + d)

inductive Numeral : List Char → Nat → Prop
  | plain {s : List Char} {n : Nat} (h : Digits s n) : Numeral s n
  | signed {s : List Char} {n : Nat} (h : Digits s n) : Numeral ('+' :: s) n

def Sets (raw : String) (n : Nat) : Prop :=
  ∃ t, Text.Padded raw.toList t ∧ Numeral t n ∧ 1 ≤ n ∧ n < UInt64.size

theorem toNat_digitChar (d : Fin 10) : (Nat.digitChar d).toNat - '0'.toNat = d := by
  revert d
  decide

theorem exists_digitChar (h : c.isDigit = true) : ∃ d : Fin 10, c = Nat.digitChar d := by
  simp only [Char.isDigit, Bool.and_eq_true, decide_eq_true_eq, ge_iff_le, UInt32.le_iff_toNat_le] at h
  have hlow : 48 ≤ c.toNat := h.1
  have hhigh : c.toNat ≤ 57 := h.2
  have hvalue : ∀ d : Fin 10, (Nat.digitChar d).toNat = 48 + d := by decide
  refine ⟨⟨c.toNat - 48, by omega⟩, Char.toNat_inj.mp ?_⟩
  rw [hvalue]
  exact (Nat.add_sub_cancel' hlow).symm

def decimal (s : List Char) : Nat := s.foldl (fun n c => 10 * n + (c.toNat - '0'.toNat)) 0

theorem decimal_concat : decimal (s ++ [c]) = 10 * decimal s + (c.toNat - '0'.toNat) := by
  rw [decimal, List.foldl_append]
  rfl

theorem digits_iff : Digits s n ↔ s ≠ [] ∧ (∀ c ∈ s, c.isDigit = true) ∧ decimal s = n := by
  constructor
  · intro h
    induction h with
    | one d => exact ⟨List.cons_ne_nil _ _, by simp, (Nat.zero_add _).trans (toNat_digitChar d)⟩
    | more d h ih =>
      obtain ⟨-, hall, rfl⟩ := ih
      refine ⟨List.concat_ne_nil _ _, fun c hc => ?_, by rw [decimal_concat, toNat_digitChar]⟩
      rcases List.mem_append.mp hc with hc | hc
      · exact hall c hc
      · obtain rfl := List.mem_singleton.mp hc
        exact Nat.isDigit_digitChar.trans (decide_eq_true d.isLt)
  · rintro ⟨hne, hall, rfl⟩
    induction s using List.reverseRecOn with
    | nil => exact absurd rfl hne
    | append_singleton s c ih =>
      obtain ⟨d, rfl⟩ := exists_digitChar (hall c List.mem_concat_self)
      rw [decimal_concat, toNat_digitChar]
      cases s with
      | nil => exact (Nat.zero_add _).symm ▸ .one d
      | cons b s => exact .more d (ih (List.cons_ne_nil _ _) fun c hc => hall c (List.mem_append_left _ hc))

def unsigned (s : List Char) : List Char := if s.head? = some '+' then s.drop 1 else s

theorem numeral_iff : Numeral s n ↔ Digits (unsigned s) n := by
  constructor
  · rintro (h | h)
    · have hplus : s.head? ≠ some '+' := by
        intro hhead
        have hdigit := (digits_iff.mp h).2.1 '+' (List.mem_of_mem_head? hhead)
        exact absurd hdigit (by decide)
      rwa [unsigned, if_neg hplus]
    · exact h
  · intro h
    unfold unsigned at h
    split at h
    · rename_i hplus
      obtain ⟨t, rfl⟩ := List.head?_eq_some_iff.mp hplus
      exact .signed h
    · exact .plain h

theorem parseUInt64_eq_some_iff {m : UInt64} : parseUInt64 s = some m ↔ Numeral s m.toNat := by
  have hparse : parseUInt64 s = if (unsigned s).isEmpty || !(unsigned s).all Char.isDigit then none
      else if decimal (unsigned s) < UInt64.size then some (UInt64.ofNat (decimal (unsigned s))) else none := rfl
  have hsize : m.toNat < UInt64.size := m.toNat_lt_size
  rw [hparse, numeral_iff, digits_iff]
  split
  · rename_i hbad
    simp only [Bool.or_eq_true, List.isEmpty_iff, Bool.not_eq_true', List.all_eq_false] at hbad
    simp only [reduceCtorEq, false_iff, not_and]
    rcases hbad with hempty | ⟨c, hc, hdigit⟩
    · exact fun hne => absurd hempty hne
    · exact fun _ hall => absurd (hall c hc) hdigit
  · rename_i hgood
    simp only [Bool.or_eq_true, List.isEmpty_iff, Bool.not_eq_true', List.all_eq_false, not_or, not_exists, not_and,
      Decidable.not_not] at hgood
    split
    · rename_i hlt
      rw [Option.some.injEq, ← UInt64.toNat_inj, UInt64.toNat_ofNat_of_lt' hlt]
      exact ⟨fun h => ⟨hgood.1, hgood.2, h⟩, fun h => h.2.2⟩
    · rename_i hge
      simp only [reduceCtorEq, false_iff, not_and]
      intro _ _ hm
      exact hge (hm ▸ hsize)

theorem isBlank_of_numeral (h : Numeral s n) : s ≠ [] ∧ ∀ c ∈ s, Text.isBlank c = false := by
  have hdigit : ∀ c, c.isDigit = true → Text.isBlank c = false := by
    intro c hc
    obtain ⟨d, rfl⟩ := exists_digitChar hc
    revert d
    decide
  cases h with
  | plain h => exact ⟨(digits_iff.mp h).1, fun c hc => hdigit c ((digits_iff.mp h).2.1 c hc)⟩
  | signed h =>
    refine ⟨List.cons_ne_nil _ _, fun c hc => ?_⟩
    rcases List.mem_cons.mp hc with rfl | hc
    · decide
    · exact hdigit c ((digits_iff.mp h).2.1 c hc)

theorem sets_iff : Sets raw n ↔ Numeral (Text.trim raw.toList) n ∧ 1 ≤ n ∧ n < UInt64.size := by
  constructor
  · rintro ⟨t, hpadded, hn, hrange⟩
    obtain ⟨hne, hblank⟩ := isBlank_of_numeral hn
    exact ⟨(Text.trim_eq_of_padded hpadded hne hblank).symm ▸ hn, hrange⟩
  · exact fun ⟨hn, hrange⟩ => ⟨_, Text.padded_trim _, hn, hrange⟩

theorem parseTimeout_eq_some_iff {d : Duration} :
    parseTimeout raw = some d ↔ ∃ n, Sets raw n ∧ d = .ofSeconds (UInt64.ofNat n) := by
  have hparse : parseTimeout raw = some d ↔
      ∃ m, parseUInt64 (Text.trim raw.toList) = some m ∧ m ≠ 0 ∧ d = .ofSeconds m := by
    unfold parseTimeout
    cases parseUInt64 (Text.trim raw.toList) with
    | none => simp
    | some m => by_cases hm : m = 0 <;> simp [hm, eq_comm]
  rw [hparse]
  constructor
  · rintro ⟨m, hm, hne, rfl⟩
    have hpos : m.toNat ≠ 0 := fun hz => hne (UInt64.toNat_inj.mp hz)
    have hsets : Sets raw m.toNat :=
      sets_iff.mpr ⟨parseUInt64_eq_some_iff.mp hm, Nat.pos_of_ne_zero hpos, m.toNat_lt_size⟩
    exact ⟨m.toNat, hsets, by rw [UInt64.ofNat_toNat]⟩
  · rintro ⟨n, hn, rfl⟩
    obtain ⟨hnumeral, hpos, hlt⟩ := sets_iff.mp hn
    have hvalue : (UInt64.ofNat n).toNat = n := UInt64.toNat_ofNat_of_lt' hlt
    refine ⟨UInt64.ofNat n, parseUInt64_eq_some_iff.mpr (hvalue.symm ▸ hnumeral), fun hz => ?_, rfl⟩
    rw [hz] at hvalue
    exact absurd hvalue (Nat.ne_of_lt hpos)

theorem parseTimeout_eq_none_iff : parseTimeout raw = none ↔ ∀ n, ¬Sets raw n := by
  rw [Option.eq_none_iff_forall_ne_some]
  constructor
  · exact fun h n hn => h _ (parseTimeout_eq_some_iff.mpr ⟨n, hn, rfl⟩)
  · intro h d hd
    obtain ⟨n, hn, -⟩ := parseTimeout_eq_some_iff.mp hd
    exact h n hn

structure Configures (timeout memDebug : Option String) (c : Config) (log : List Event) : Prop where
  set : ∀ raw n, timeout = some raw → Sets raw n → c.timeout = .ofSeconds (UInt64.ofNat n) ∧ log = []
  kept : (∀ raw n, timeout = some raw → ¬Sets raw n) → c.timeout = ({} : Config).timeout ∧
    log = timeout.toList.map (.invalidTimeout "POLICY_EXECUTION_TIMEOUT_SECS")
  timeout_iff : ∀ d, c.timeout = d ↔
    (∃ raw n, timeout = some raw ∧ Sets raw n ∧ d = .ofSeconds (UInt64.ofNat n)) ∨
      (∀ raw n, timeout = some raw → ¬Sets raw n) ∧ d = ({} : Config).timeout
  memDebug_iff : c.memDebug = true ↔ ∃ raw, memDebug = some raw ∧ Text.Padded raw.toList ['1']
  slow : c.slow = ({} : Config).slow

section

variable {timeout : Option String} (memDebug : Option String)

theorem exists_ofEnvironment (timeout memDebug : Option String) : ∃ d log, ofEnvironment timeout memDebug =
    ({ timeout := d, memDebug := memDebug.any fun s => Text.trim s.toList == ['1'] }, log) := by
  unfold ofEnvironment
  cases timeout with
  | none => exact ⟨_, _, rfl⟩
  | some raw => cases h : parseTimeout raw <;> exact ⟨_, _, by simp only [h]; rfl⟩

theorem ofEnvironment_of_sets (h : Sets raw n) :
    (ofEnvironment (some raw) memDebug).1.timeout = .ofSeconds (UInt64.ofNat n) ∧
      (ofEnvironment (some raw) memDebug).2 = [] := by
  have hparse : parseTimeout raw = some (.ofSeconds (UInt64.ofNat n)) := parseTimeout_eq_some_iff.mpr ⟨n, h, rfl⟩
  simp [ofEnvironment, hparse]

theorem ofEnvironment_of_not_sets (h : ∀ raw n, timeout = some raw → ¬Sets raw n) :
    (ofEnvironment timeout memDebug).1.timeout = ({} : Config).timeout ∧
      (ofEnvironment timeout memDebug).2 = timeout.toList.map (.invalidTimeout "POLICY_EXECUTION_TIMEOUT_SECS") := by
  cases timeout with
  | none => exact ⟨rfl, rfl⟩
  | some raw =>
    have hparse : parseTimeout raw = none := parseTimeout_eq_none_iff.mpr fun n => h raw n rfl
    simp [ofEnvironment, hparse, timeoutVariable]

end

/-- A timeout is taken from the environment exactly if it is a numeral between white space of a positive value
that fits 64 bits; otherwise the default stays, and a variable that is set is warned of once. -/
theorem ofEnvironment_configures (timeout memDebug : Option String) :
    Configures timeout memDebug (ofEnvironment timeout memDebug).1 (ofEnvironment timeout memDebug).2 where
  set raw n hraw hn := hraw ▸ ofEnvironment_of_sets memDebug hn
  kept := ofEnvironment_of_not_sets memDebug
  timeout_iff d := by
    by_cases hset : ∃ raw n, timeout = some raw ∧ Sets raw n
    · obtain ⟨raw, n, rfl, hn⟩ := hset
      rw [(ofEnvironment_of_sets memDebug hn).1]
      constructor
      · exact fun hd => .inl ⟨raw, n, rfl, hn, hd.symm⟩
      · rintro (⟨raw', m, hraw, hm, rfl⟩ | ⟨hnone, -⟩)
        · obtain rfl := Option.some.inj hraw
          exact (ofEnvironment_of_sets memDebug hn).1.symm.trans (ofEnvironment_of_sets memDebug hm).1
        · exact absurd hn (hnone raw n rfl)
    · have hnone : ∀ raw n, timeout = some raw → ¬Sets raw n := fun raw n hraw hn => hset ⟨raw, n, hraw, hn⟩
      rw [(ofEnvironment_of_not_sets memDebug hnone).1]
      constructor
      · exact fun hd => .inr ⟨hnone, hd.symm⟩
      · rintro (⟨raw, n, hraw, hn, -⟩ | ⟨-, rfl⟩)
        · exact absurd hn (hnone raw n hraw)
        · rfl
  memDebug_iff := by
    obtain ⟨d, log, he⟩ := exists_ofEnvironment timeout memDebug
    have hone : ∀ raw : String, Text.trim raw.toList = ['1'] ↔ Text.Padded raw.toList ['1'] :=
      fun raw => Text.trim_eq_iff (List.cons_ne_nil _ _) fun c hc => by rw [List.mem_singleton.mp hc]; decide
    simp [he, Option.any_eq_true, hone]
  slow := by
    obtain ⟨d, log, he⟩ := exists_ofEnvironment timeout memDebug
    rw [he]

end Config

end Compliance
