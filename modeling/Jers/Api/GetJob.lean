import Jers.Server.JobQueries
import Mathlib.Data.Nat.Bitwise

/-!
# The client's side of a query for jobs

`jersGetJob` writes the filter of its caller into a request. The filter is held against the one that
`deserialize_get_job` makes of the request, which is the fields in their order.
-/

namespace Jers

open List JersJobFilter FilterTimes

/-- A field, if it is to be sent. -/
def sends (wanted : Bool) (number : Field) (value : FieldValue) : MsgItem :=
  if wanted then [⟨number, value⟩] else []

theorem forall_mem_sends {wanted : Bool} {number : Field} {value : FieldValue}
    {p : MsgField → Prop} : (∀ field ∈ sends wanted number value, p field) ↔
    (wanted = true → p ⟨number, value⟩) := by
  rcases wanted with _ | _ <;> simp [sends]

theorem foldl_sends {ρ : Type} (set : ρ → MsgField → ρ) (r : ρ) (wanted : Bool) (number : Field)
    (value : FieldValue) :
    (sends wanted number value).foldl set r = if wanted then set r ⟨number, value⟩ else r := by
  rcases wanted with _ | _ <;> rfl

/-! ### The request -/

variable {f : JersJobFilter}

/-- The fields of a filter. The bounds after which something happened are sent if there are bounds
before which it happened; a node is not sent. -/
def JersJobFilter.fieldsSent (f : JersJobFilter) : MsgItem :=
  sends (f.has filterJobname) .jobname (.string (some f.jobName)) ++
  sends (f.has filterQueue) .queuename (.string (some f.queueName)) ++
  sends (f.has filterState) .state (.num f.state.toInt) ++
  sends (f.has filterTags) .tags (.map f.tags) ++
  sends (f.has filterResources) .resources (.stringarray f.resources) ++
  sends (f.has filterUid) .uid (.num f.uid.toNat) ++
  sends (f.has filterSubmitter) .submitter (.num f.submitter.toNat) ++
  sends (f.has filterBefore && f.before.added != 0) .beforeAdded (.num f.before.added) ++
  sends (f.has filterBefore && f.before.started != 0) .beforeStarted (.num f.before.started) ++
  sends (f.has filterBefore && f.before.finished != 0) .beforeFinished (.num f.before.finished) ++
  sends (f.has filterAfter && f.before.added != 0) .afterAdded (.num f.after.added) ++
  sends (f.has filterAfter && f.before.started != 0) .afterStarted (.num f.after.started) ++
  sends (f.has filterAfter && f.before.finished != 0) .afterFinished (.num f.after.finished)

/-- `jersGetJob`, the item of its request. -/
def jersGetJob (jobid : BitVec 32) (filter : Option JersJobFilter) : MsgItem :=
  if jobid ≠ 0 then [⟨.jobid, .num jobid.toNat⟩]
  else
    match filter with
    | none => []
    | some f =>
      (if f.filterFields ≠ 0 then f.fieldsSent else []) ++
      sends (f.returnFields ≠ 0) .retfields (.num f.returnFields)

/-- The filter with nothing in the fields that do not count. -/
def JersJobFilter.selected (f : JersJobFilter) : JersJobFilter where
  filterFields := f.filterFields
  returnFields := f.returnFields
  jobName := if f.has filterJobname then f.jobName else []
  queueName := if f.has filterQueue then f.queueName else []
  node := if f.has filterNode then f.node else []
  state := if f.has filterState then f.state else 0
  tags := if f.has filterTags then f.tags else []
  resources := if f.has filterResources then f.resources else []
  uid := if f.has filterUid then f.uid else 0
  submitter := if f.has filterSubmitter then f.submitter else 0
  before := if f.has filterBefore then f.before else {}
  after := if f.has filterAfter then f.after else {}

/-- The fields that are both sent and read. -/
def carriedFields : ℕ :=
  filterJobname ||| filterQueue ||| filterState ||| filterTags ||| filterResources |||
  filterUid ||| filterBefore ||| filterAfter

/-- The filter is one that a request can carry. -/
structure JersJobFilter.Carried (f : JersJobFilter) : Prop where
  fields : ∀ i, f.filterFields.testBit i = true → carriedFields.testBit i = true
  before : f.has filterBefore = true → f.before ≠ {}
  after : f.has filterAfter = true → f.before ≠ {} ∧ (f.before.added = 0 → f.after.added = 0) ∧
    (f.before.started = 0 → f.after.started = 0) ∧ (f.before.finished = 0 → f.after.finished = 0)

theorem JersJobFilter.set_jobid {s : JersJobFilter} {field : MsgField} (h : field.number ≠ .jobid) :
    (s.set field).jobid = s.jobid := by
  unfold set
  split <;> first | rfl | contradiction

/-- Without a job id the loop reads every field. -/
theorem JersJobFilter.setAll_eq_foldl {s : JersJobFilter} {item : MsgItem} (hs : s.jobid = 0)
    (h : ∀ field ∈ item, field.number ≠ .jobid) : s.setAll item = item.foldl set s := by
  induction item generalizing s with
  | nil => rfl
  | cons field item ih =>
    obtain ⟨hfield, hitem⟩ := forall_mem_cons.mp h
    have hset : (s.set field).jobid = 0 := (set_jobid hfield).trans hs
    rw [setAll, if_neg (not_not.mpr hset), foldl_cons, ih hset hitem]

theorem deserializeGetJob_jersGetJob : deserializeGetJob (jersGetJob 0 (some f)) =
      (f.fieldsSent ++ sends (f.returnFields ≠ 0) .retfields (.num f.returnFields)).foldl
      JersJobFilter.set {} := by
  have hsent : (if f.filterFields ≠ 0 then f.fieldsSent else []) = f.fieldsSent := by
    rw [ite_eq_left_iff, not_not]
    intro hzero
    simp [fieldsSent, has, hasBit, hzero, sends]
  rw [deserializeGetJob, jersGetJob, if_neg (not_not.mpr rfl)]
  rw [hsent]
  refine setAll_eq_foldl rfl ?_
  simp only [fieldsSent, forall_mem_append, forall_mem_sends]
  simp

/-- There is a bound. -/
def FilterTimes.isSet (times : FilterTimes) : Bool :=
  times.added != 0 || times.started != 0 || times.finished != 0

theorem FilterTimes.isSet_iff {times : FilterTimes} : times.isSet = true ↔ times ≠ {} := by
  rcases times with ⟨added, started, finished⟩
  simp [isSet, mk.injEq, imp_iff_not_or, or_assoc]

theorem hasBit_two_pow (mask k : ℕ) : hasBit mask (2 ^ k) = mask.testBit k := by
  rw [hasBit, Nat.and_two_pow]
  rcases mask.testBit k with _ | _ <;> simp

theorem ite_or_bit (w : Bool) (m bit : ℕ) :
    (if w then m ||| bit else m) = m ||| if w then bit else 0 := by
  rcases w with _ | _ <;> simp

theorem testBit_ite_two_pow (w : Bool) (k i : ℕ) :
    (if w then 2 ^ k else 0).testBit i = (w && k == i) := by
  rcases w with _ | _
  · simp
  · rw [if_pos rfl, Nat.testBit_two_pow, Bool.true_and]
    rfl

/-- The fields of the filter that the daemon has. -/
theorem testBit_deserializeGetJob (i : ℕ) :
    (deserializeGetJob (jersGetJob 0 (some f))).filterFields.testBit i =
      (f.filterFields.testBit i && carriedFields.testBit i && (i < 9 || f.before.isSet)) := by
  have hpow : filterJobname = 2 ^ 0 ∧ filterQueue = 2 ^ 1 ∧ filterState = 2 ^ 2 ∧
      filterTags = 2 ^ 3 ∧ filterResources = 2 ^ 4 ∧ filterUid = 2 ^ 5 ∧ filterBefore = 2 ^ 9 ∧
      filterAfter = 2 ^ 10 := by decide
  rw [deserializeGetJob_jersGetJob]
  simp only [fieldsSent, foldl_append, foldl_sends, apply_ite filterFields,
    JersJobFilter.set, ite_self, ite_or_bit, Nat.testBit_or, carriedFields, hpow,
    testBit_ite_two_pow, Nat.testBit_two_pow, has, hasBit_two_pow, isSet, Nat.zero_testBit]
  -- every bit is looked at on its own; those above the last are not there
  rcases Nat.lt_or_ge i 11 with hi | hi
  · interval_cases i <;> simp [Bool.and_or_distrib_left]
  · obtain ⟨n, rfl⟩ := Nat.exists_eq_add_of_le' hi
    simp

theorem filterFields_carried_iff :
    (deserializeGetJob (jersGetJob 0 (some f))).filterFields = f.filterFields ↔
      ∀ i, f.filterFields.testBit i = true → carriedFields.testBit i = true ∧
      (9 ≤ i → f.before.isSet = true) := by
  constructor
  · intro hsame i hi
    have hbit := testBit_deserializeGetJob i (f := f)
    rw [hsame, hi, Bool.true_and, eq_comm, Bool.and_eq_true, Bool.or_eq_true,
      decide_eq_true_iff] at hbit
    exact ⟨hbit.1, fun hle ↦ hbit.2.resolve_left (Nat.not_lt.mpr hle)⟩
  · refine fun hall ↦ Nat.eq_of_testBit_eq fun i ↦ ?_
    rw [testBit_deserializeGetJob]
    rcases hi : f.filterFields.testBit i with _ | _
    · rfl
    · obtain ⟨hcarried, hset⟩ := hall i hi
      rw [hcarried, Bool.true_and, Bool.true_and, Bool.or_eq_true, decide_eq_true_iff]
      exact (Nat.lt_or_ge i 9).imp_right hset

/-- What is left of three times `x`, `y`, `z` that are sent by three others. -/
theorem times_sent (w : Bool) (a b c x y z : ℤ) : (if (w && c != 0) = true then
      (⟨if (w && a != 0) = true then x else 0, if (w && b != 0) = true then y else 0, z⟩ :
        FilterTimes)
    else if (w && b != 0) = true then ⟨if (w && a != 0) = true then x else 0, y, 0⟩
    else if (w && a != 0) = true then ⟨x, 0, 0⟩ else {}) =
      if w = true then ⟨if a = 0 then 0 else x, if b = 0 then 0 else y, if c = 0 then 0 else z⟩
        else {} := by
  rcases w with _ | _
  · rfl
  · simp only [Bool.true_and, bne_iff_ne, ne_eq, ite_not, if_true]
    split_ifs <;> rfl

/-- The values of the filter that the daemon has. -/
theorem deserializeGetJob_values : deserializeGetJob (jersGetJob 0 (some f)) =
      { f.selected with
        filterFields := (deserializeGetJob (jersGetJob 0 (some f))).filterFields
        node := []
        submitter := 0
        after := if f.has filterAfter then
          ⟨if f.before.added = 0 then 0 else f.after.added,
            if f.before.started = 0 then 0 else f.after.started,
            if f.before.finished = 0 then 0 else f.after.finished⟩ else {} } := by
  refine JersJobFilter.ext rfl ?_ ?_ ?_ ?_ ?_ ?_ ?_ ?_ ?_ ?_ ?_ ?_
  all_goals
    rw [deserializeGetJob_jersGetJob]
    simp only [fieldsSent, foldl_append, foldl_sends, apply_ite returnFields,
      apply_ite jobid, apply_ite jobName, apply_ite queueName,
      apply_ite node, apply_ite state, apply_ite tags,
      apply_ite resources, apply_ite uid, apply_ite submitter,
      apply_ite JersJobFilter.before, apply_ite JersJobFilter.after, apply_ite added,
      apply_ite started, apply_ite finished, JersJobFilter.set, ite_self, getStringField,
      getNumberField, getStringArrayField, getStringMapField, Option.getD_some, BitVec.ofInt_toInt,
      BitVec.ofInt_natCast, BitVec.ofNat_toNat, BitVec.setWidth_eq, selected]
  · by_cases hzero : f.returnFields = 0 <;> simp [hzero]
  · refine (times_sent ..).trans ?_
    simp only [ite_eq_right_iff.mpr Eq.symm]
  · exact times_sent ..

/-- **A filter arrives as it was sent** exactly when it is one that a request can carry. -/
theorem deserializeGetJob_jersGetJob_iff (f : JersJobFilter) :
    deserializeGetJob (jersGetJob 0 (some f)) = f.selected ↔ f.Carried := by
  have hbefore : f.has filterBefore = f.filterFields.testBit 9 := hasBit_two_pow _ 9
  have hafter : f.has filterAfter = f.filterFields.testBit 10 := hasBit_two_pow _ 10
  constructor
  · intro hsame
    have hfields := filterFields_carried_iff.mp ((congrArg filterFields hsame).trans rfl)
    have hvalues := congrArg JersJobFilter.after (hsame.symm.trans deserializeGetJob_values)
    refine ⟨fun i hi ↦ (hfields i hi).1, fun hset ↦ ?_, fun hset ↦ ⟨?_, ?_⟩⟩
    · exact isSet_iff.mp ((hfields 9 (hbefore ▸ hset)).2 (by decide))
    · exact isSet_iff.mp ((hfields 10 (hafter ▸ hset)).2 (by decide))
    · simp only [selected, hset, if_true] at hvalues
      rw [hvalues]
      exact ⟨fun h ↦ if_pos h, fun h ↦ if_pos h, fun h ↦ if_pos h⟩
  · intro hcarried
    have hset : ∀ i, f.filterFields.testBit i = true → 9 ≤ i → f.before ≠ {} := by
      intro i hi hle
      rcases Nat.lt_or_ge i 11 with hlt | hge
      · interval_cases i
        · exact hcarried.before (hbefore.trans hi)
        · exact (hcarried.after (hafter.trans hi)).1
      · have hnone : carriedFields.testBit i = false :=
          Nat.testBit_lt_two_pow ((show carriedFields < 2 ^ 11 by decide).trans_le
          (Nat.pow_le_pow_right (by decide) hge))
        exact nomatch (hcarried.fields i hi).symm.trans hnone
    have hfields := filterFields_carried_iff.mpr fun i hi ↦
      ⟨hcarried.fields i hi, fun hle ↦ isSet_iff.mpr (hset i hi hle)⟩
    have hnode : f.has filterNode = false := by
      rw [show f.has filterNode = _ from hasBit_two_pow _ 7]
      exact Bool.eq_false_of_not_eq_true fun h ↦ absurd (hcarried.fields 7 h) (by decide)
    have hsubmitter : f.has filterSubmitter = false := by
      rw [show f.has filterSubmitter = _ from hasBit_two_pow _ 8]
      exact Bool.eq_false_of_not_eq_true fun h ↦ absurd (hcarried.fields 8 h) (by decide)
    rw [deserializeGetJob_values, hfields]
    refine JersJobFilter.ext rfl rfl rfl rfl rfl ?_ rfl rfl rfl rfl ?_ rfl ?_
    · simp only [JersJobFilter.selected, hnode, Bool.false_eq_true, if_false]
    · simp only [selected, hsubmitter, Bool.false_eq_true, if_false]
    · show (if f.has filterAfter then _ else _) = if f.has filterAfter then f.after else {}
      rcases hset : f.has filterAfter with _ | _
      · rfl
      · obtain ⟨-, hadded, hstarted, hfinished⟩ := hcarried.after hset
        rw [if_pos rfl, if_pos rfl, ite_eq_right_iff.mpr fun h ↦ (hadded h).symm,
          ite_eq_right_iff.mpr fun h ↦ (hstarted h).symm, ite_eq_right_iff.mpr fun h ↦
          (hfinished h).symm]

/-- A bound after which jobs were added, a node and a submitter are lost on the way. -/
theorem deserializeGetJob_jersGetJob_lost :
    let after : JersJobFilter := { filterFields := filterAfter, after := { added := 5 } }
    let node : JersJobFilter := { filterFields := filterNode, node := "n".toList }
    let submitter : JersJobFilter := { filterFields := filterSubmitter, submitter := 7 }
    deserializeGetJob (jersGetJob 0 (some after)) ≠ after.selected ∧
      deserializeGetJob (jersGetJob 0 (some node)) ≠ node.selected ∧
      deserializeGetJob (jersGetJob 0 (some submitter)) ≠ submitter.selected := by
  decide

end Jers
