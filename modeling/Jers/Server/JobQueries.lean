import Jers.Json.Message
import Jers.Server.Privacy

/-!
# What a query for jobs asks, and what it is answered with

`deserialize_get_job` decodes a request into a `jersJobFilter`; `command_get_job` then holds every
job against it. The declarative reading of a filter is given here field by field: `Read` for the
fields that the search looks at, and `Ignored` for the resources and the node, which are decoded and
never looked at. For `Read` there is one lemma for each test of the search.
-/

namespace Jers

open List Option Table Sample Except

/-! ### The decoded filter -/

def filterJobname : ℕ := 0x01
def filterQueue : ℕ := 0x02
def filterState : ℕ := 0x04
def filterTags : ℕ := 0x08
def filterResources : ℕ := 0x10
def filterUid : ℕ := 0x20
def filterNode : ℕ := 0x80
def filterSubmitter : ℕ := 0x0100
def filterBefore : ℕ := 0x0200
def filterAfter : ℕ := 0x0400

/-- `jersJobFilter`. A field of `filters` counts if its bit is set in `filterFields`. -/
@[ext]
structure JersJobFilter where
  filterFields : ℕ := 0
  returnFields : ℤ := 0
  jobid : BitVec 32 := 0
  jobName : Str := []
  queueName : Str := []
  node : Str := []
  state : BitVec 32 := 0
  tags : List (Str × Option Str) := []
  resources : List (Option Str) := []
  uid : BitVec 32 := 0
  submitter : BitVec 32 := 0
  before : FilterTimes := {}
  after : FilterTimes := {}
  deriving DecidableEq, Repr

/-- The bit is set in the mask. -/
def hasBit (mask bit : ℕ) : Bool := mask &&& bit != 0

def JersJobFilter.has (f : JersJobFilter) (bit : ℕ) : Bool := hasBit f.filterFields bit

/-- A null string is read as an empty one. -/
def getStringField : FieldValue → Str
  | .string s => s.getD []
  | _ => []

def getNumberField : FieldValue → ℤ
  | .num n => n
  | _ => 0

def getStringArrayField : FieldValue → List (Option Str)
  | .stringarray ss => ss
  | _ => []

def getStringMapField : FieldValue → List (Str × Option Str)
  | .map kvs => kvs
  | _ => []

/-- The `switch` of `deserialize_get_job`. -/
def JersJobFilter.set (s : JersJobFilter) (field : MsgField) : JersJobFilter :=
  let v := field.value
  let bits (bit : ℕ) := s.filterFields ||| bit
  match field.number with
  | .jobid => { s with jobid := .ofInt 32 (getNumberField v) }
  | .jobname => { s with jobName := getStringField v, filterFields := bits filterJobname }
  | .queuename => { s with queueName := getStringField v, filterFields := bits filterQueue }
  | .state => { s with state := .ofInt 32 (getNumberField v), filterFields := bits filterState }
  | .tags => { s with tags := getStringMapField v, filterFields := bits filterTags }
  | .resources =>
    { s with resources := getStringArrayField v, filterFields := bits filterResources }
  | .uid => { s with uid := .ofInt 32 (getNumberField v), filterFields := bits filterUid }
  | .node => { s with node := getStringField v, filterFields := bits filterNode }
  | .beforeAdded => { s with before.added := getNumberField v, filterFields := bits filterBefore }
  | .beforeStarted =>
    { s with before.started := getNumberField v, filterFields := bits filterBefore }
  | .beforeFinished =>
    { s with before.finished := getNumberField v, filterFields := bits filterBefore }
  | .afterAdded => { s with after.added := getNumberField v, filterFields := bits filterAfter }
  | .afterStarted => { s with after.started := getNumberField v, filterFields := bits filterAfter }
  | .afterFinished =>
    { s with after.finished := getNumberField v, filterFields := bits filterAfter }
  | .retfields => { s with returnFields := getNumberField v }
  | _ => s

/-- The loop over the fields, which ends at a job id. -/
def JersJobFilter.setAll : JersJobFilter → MsgItem → JersJobFilter
  | s, [] => s
  | s, field :: fields =>
    if (s.set field).jobid ≠ 0 then s.set field else (s.set field).setAll fields

def deserializeGetJob (item : MsgItem) : JersJobFilter := JersJobFilter.setAll {} item

/-- The fields that `command_get_job` reads. -/
def JersJobFilter.toJobFilter (f : JersJobFilter) : JobFilter where
  jobid := f.jobid.toNat
  jobName := if f.has filterJobname then some (some f.jobName) else none
  queueName := if f.has filterQueue then some (some f.queueName) else none
  state := if f.has filterState then some f.state.toNat else none
  tags := if f.has filterTags then some f.tags else none
  uid := if f.has filterUid then some f.uid.toNat else none
  before := if f.has filterBefore then some f.before else none
  after := if f.has filterAfter then some f.after else none
  returnFields := (f.returnFields % 2 ^ 32).toNat

/-! ### What a filter means -/

/-- A name matches a pattern: as a whole, or by its wildcards. -/
def Matches (env : Env) (pattern string : Str) : Prop :=
  if hasWildcard pattern then env.queueMatch pattern string = true else string = pattern

/-- A time is not after a bound, which does not count if it is 0; where `needed`, a time of 0 is not
within any bound. -/
def NotAfter (needed : Bool) (bound time : ℤ) : Prop :=
  bound ≠ 0 → (needed = true → time ≠ 0) ∧ time ≤ bound

def NotBefore (needed : Bool) (bound time : ℤ) : Prop :=
  bound ≠ 0 → (needed = true → time ≠ 0) ∧ bound ≤ time

/-- The job meets the fields of the filter that the search looks at. -/
structure JersJobFilter.Read (f : JersJobFilter) (env : Env) (t : Tables) (j : Job) : Prop where
  state : f.has filterState = true → f.state.toNat &&& j.state.toInt.toNat ≠ 0
  queue : f.has filterQueue = true → ∃ q, t.queueTable.get? j.queue = some q ∧
    Matches env f.queueName q.name
  uid : f.has filterUid = true → j.uid = f.uid.toNat
  name : f.has filterJobname = true → Matches env f.jobName j.jobname
  tags : f.has filterTags = true → ∀ tag ∈ f.tags, ∃ tag' ∈ j.tags, tag'.1 = tag.1 ∧
    ∃ pattern value, tag.2 = some pattern ∧ tag'.2 = some value ∧ Matches env pattern value
  before : f.has filterBefore = true → NotAfter false f.before.added j.submitTime ∧
    NotAfter true f.before.started j.startTime ∧ NotAfter true f.before.finished j.finishTime
  after : f.has filterAfter = true → NotBefore false f.after.added j.submitTime ∧
    NotBefore true f.after.started j.startTime ∧ NotBefore true f.after.finished j.finishTime

/-- The job meets the other fields: it requires every resource that is named, and runs on the
node. -/
structure JersJobFilter.Ignored (f : JersJobFilter) (env : Env) (t : Tables) (j : Job) : Prop where
  resources : f.has filterResources = true → ∀ name ∈ f.resources, ∃ pattern, name = some pattern ∧
    ∃ r ∈ j.reqResources, ∃ res, t.resTable.get? r.res = some res ∧ Matches env pattern res.name
  node : f.has filterNode = true → ∃ q, t.queueTable.get? j.queue = some q ∧
    Matches env f.node q.host

/-- The jobs that a query asks for. -/
def JersJobFilter.Asks (f : JersJobFilter) (env : Env) (s : Server) (a : Addr) : Prop :=
  ∃ j, s.jobTable.get? a = some j ∧ j.internalState.deleted = false ∧ f.Read env s.toTables j ∧
    f.Ignored env s.toTables j

/-- **The query is answered exactly**: there is an answer, and it has the jobs that are asked for,
each once. Where there are none it can be the error for a queue that does not exist. -/
def AnsweredExactly (env : Env) (c : Client) (f : JersJobFilter) (s : Server) : Prop :=
  (∃ reply, commandGetJob env c f.toJobFilter none [] s = .ok (reply, s)) ∧
    ∃ found, jobsFor env c f.toJobFilter none [] s = .ok (found, s) ∧
      (found = .inl .noqueue ∧ (∀ a, ¬f.Asks env s a) ∨
        ∃ as fields, found = .inr (as, fields) ∧ as.Nodup ∧ ∀ a, a ∈ as ↔ f.Asks env s a)

/-! ### The tests of the search -/

variable {as found : List Addr} {q : Option Addr}

section

variable {env : Env} {t : Tables} {f : JersJobFilter} {j : Job}

theorem matchesPattern_decides (pattern string : Str) :
    (matchesPattern env (some pattern) (some string)).Decides (Matches env pattern string) := by
  refine .ok ?_
  unfold Matches
  split_ifs
  · exact Iff.rfl
  · exact beq_iff_eq

/-- The patterns and the values of tags can be null. -/
theorem matchesPattern_some {b : Bool} {pattern value : Option Str}
    (h : matchesPattern env pattern value = .ok b) :
    ∃ p v, pattern = some p ∧ value = some v ∧ (b = true ↔ Matches env p v) := by
  rcases pattern with _ | p
  · exact nomatch h
  rcases value with _ | v
  · exact nomatch h
  · exact ⟨p, v, rfl, rfl, matchesPattern_decides p v b h⟩

/-- A tag of a job is what a tag of the filter asks for. -/
def TagMet (env : Env) (tag tag' : Str × Option Str) : Prop :=
  tag'.1 = tag.1 ∧ ∃ pattern value, tag.2 = some pattern ∧ tag'.2 = some value ∧
  Matches env pattern value

theorem tagMatches_decides (tag : Str × Option Str) (tags : List (Str × Option Str)) :
    (tagMatches env tag.1 tag.2 tags).Decides (∃ tag' ∈ tags, TagMet env tag tag') := by
  intro b h
  induction tags with
  | nil =>
    obtain rfl := ok.inj h
    exact iff_of_false Bool.false_ne_true fun ⟨_, hmem, _⟩ ↦ nomatch hmem
  | cons first tags ih =>
    rw [exists_mem_cons_iff]
    rw [tagMatches] at h
    split_ifs at h with hkey
    · obtain ⟨matched, hmatch, hrest⟩ := bind_eq_ok_iff.mp h
      obtain ⟨p, v, hp, hv, hiff⟩ := matchesPattern_some hmatch
      have hmet : TagMet env tag first ↔ matched = true := by
        rw [hiff]
        refine ⟨fun ⟨_, p', v', hp', hv', hm⟩ ↦ ?_, fun hm ↦ ⟨hkey, p, v, hp, hv, hm⟩⟩
        rwa [mem_unique hp hp', mem_unique hv hv']
      rw [hmet]
      rcases matched with _ | _
      · rw [ih hrest]
        exact (or_iff_right Bool.false_ne_true).symm
      · obtain rfl := ok.inj hrest
        exact iff_of_true rfl (.inl rfl)
    · rw [ih h]
      exact (or_iff_right fun hmet ↦ hkey hmet.1).symm

theorem tagsMatch_decides (i : ℕ) (tags : List (Str × Option Str)) :
    (tagsMatch env none j.tags i tags).Decides (∀ tag ∈ tags, ∃ tag' ∈ j.tags,
      TagMet env tag tag') := by
  induction tags generalizing i with
  | nil => exact .ok (by simp)
  | cons tag tags ih =>
    rw [tagsMatch, if_neg (by simp)]
    intro b h
    obtain ⟨matched, hmatch, hrest⟩ := bind_eq_ok_iff.mp h
    rw [forall_mem_cons, ← tagMatches_decides tag j.tags matched hmatch]
    rcases matched with _ | _
    · obtain rfl := ok.inj hrest
      exact iff_of_false Bool.false_ne_true fun hall ↦ Bool.false_ne_true hall.1
    · rw [ih (i + 1) b hrest]
      exact (and_iff_right rfl).symm

theorem bounds_iff (times : FilterTimes) :
    times.bounds j = true ↔ NotAfter false times.added j.submitTime ∧
    NotAfter true times.started j.startTime ∧ NotAfter true times.finished j.finishTime := by
  simp only [FilterTimes.bounds, NotAfter]
  grind

theorem boundedBy_iff (times : FilterTimes) :
    times.boundedBy j = true ↔ NotBefore false times.added j.submitTime ∧
    NotBefore true times.started j.startTime ∧ NotBefore true times.finished j.finishTime := by
  simp only [FilterTimes.boundedBy, NotBefore]
  grind

/-- A field that counts only if its bit is set. -/
theorem any_ite_eq_false {α : Type} (set : Bool) (v : α) (p : α → Bool) :
    (if set then some v else none).any p = false ↔ (set = true → p v = false) := by
  cases set
  all_goals simp

theorem all_ite_iff {α : Type} (set : Bool) (v : α) (p : α → Bool) :
    (if set then some v else none).all p = true ↔ (set = true → p v = true) := by
  cases set
  all_goals simp

variable (env t f j)

/-- The queue filter, where `q` is the queue that it names. -/
theorem queueMatches_decides (q : Option Addr) :
    (f.toJobFilter.queueMatches env t q j).Decides (f.has filterQueue = true →
      (∀ a, q = some a → j.queue = a) ∧ ∃ queue, t.queueTable.get? j.queue = some queue ∧
      Matches env f.queueName queue.name) := by
  unfold JobFilter.queueMatches JersJobFilter.toJobFilter
  rcases f.has filterQueue with _ | _
  · exact .ok (iff_of_true rfl nofun)
  rw [if_pos rfl]
  dsimp only
  split_ifs with hother
  · obtain ⟨a, rfl, hne⟩ := (Option.any_eq_true _ _).mp hother
    exact .ok (iff_of_false Bool.false_ne_true fun hall ↦ bne_iff_ne.mp hne ((hall rfl).1 a rfl))
  · have hown : ∀ a, q = some a → j.queue = a := by
      rintro a rfl
      simpa using hother
    rcases t.queueTable.get? j.queue with _ | queue
    · exact .error _
    · refine (matchesPattern_decides _ _).congr ⟨fun hm _ ↦ ⟨hown, queue, rfl, hm⟩, fun hall ↦ ?_⟩
      obtain ⟨-, queue', hsame, hm⟩ := hall rfl
      rwa [some.inj hsame]

theorem nameMatches_decides :
    (f.toJobFilter.nameMatches env j).Decides (f.has filterJobname = true →
      Matches env f.jobName j.jobname) := by
  unfold JobFilter.nameMatches JersJobFilter.toJobFilter
  rcases f.has filterJobname with _ | _
  · exact .ok (iff_of_true rfl nofun)
  · exact (matchesPattern_decides _ _).congr ⟨fun hm _ ↦ hm, fun hm ↦ hm rfl⟩

theorem filterTags_decides : (tagsMatch env none j.tags 0 (f.toJobFilter.tags.getD [])).Decides
    (f.has filterTags = true → ∀ tag ∈ f.tags, ∃ tag' ∈ j.tags, TagMet env tag tag') := by
  refine (tagsMatch_decides 0 _).congr ?_
  unfold JersJobFilter.toJobFilter
  rcases f.has filterTags with _ | _
  · exact iff_of_true (fun _ hmem ↦ nomatch hmem) nofun
  · exact ⟨fun hall _ ↦ hall, fun hall ↦ hall rfl⟩

/-- **The search tests what it reads**, where it meets no null and no freed pointer. -/
theorem accepts_decides (q : Option Addr) : (f.toJobFilter.accepts env t q none j).Decides
    (j.internalState.deleted = false ∧ f.Read env t j ∧
      (f.has filterQueue = true → ∀ a, q = some a → j.queue = a)) := by
  have hstate : (f.toJobFilter.state.any fun bits ↦ bits &&& j.state.toInt.toNat == 0) = false ↔
      (f.has filterState = true → f.state.toNat &&& j.state.toInt.toNat ≠ 0) := by
    refine (any_ite_eq_false _ _ _).trans (imp_congr_right fun _ ↦ ?_)
    exact beq_eq_false_iff_ne
  have huid : (f.toJobFilter.uid.any fun uid ↦ uid != j.uid) = false ↔
      (f.has filterUid = true → j.uid = f.uid.toNat) := by
    refine (any_ite_eq_false _ _ _).trans (imp_congr_right fun _ ↦ ?_)
    rw [bne_eq_false_iff_eq, eq_comm]
  have hbefore := (all_ite_iff (f.has filterBefore) f.before fun times ↦ times.bounds j).trans
    (imp_congr_right fun _ ↦ bounds_iff f.before)
  have hafter := (all_ite_iff (f.has filterAfter) f.after fun times ↦ times.boundedBy j).trans
    (imp_congr_right fun _ ↦ boundedBy_iff f.after)
  have htimes := Bool.and_eq_true_iff.trans (and_congr hbefore hafter)
  have hdeleted : j.internalState.deleted = false ↔ j.internalState.deleted = false := Iff.rfl
  have hchain := Except.Decides.rejecting hdeleted <| .rejecting hstate <|
    .andThen (queueMatches_decides env t f j q) <| .rejecting huid <|
    .andThen (nameMatches_decides env f j) <| .andThen (filterTags_decides env f j) <| .ok htimes
  refine Except.Decides.congr hchain (and_congr_right fun _ ↦ ?_)
  constructor
  · rintro ⟨hst, hq, hu, hn, htag, hb, ha⟩
    exact ⟨⟨hst, fun hset ↦ (hq hset).2, hu, hn, htag, hb, ha⟩, fun hset ↦ (hq hset).1⟩
  · rintro ⟨hread, hown⟩
    exact ⟨hread.state, fun hset ↦ ⟨hown hset, hread.queue hset⟩, hread.uid, hread.name, hread.tags,
      hread.before, hread.after⟩

/-! ### The answer to a root client -/

/-- The queues have different names, as the keys of their hash table. -/
def QueueNamesDistinct (t : Tables) : Prop :=
  ∀ a b q r, t.queueTable.get? a = some q → t.queueTable.get? b = some r → q.name = r.name → a = b

/-- The queue that the filter names: `some none` where it names none, `none` where it is not
found. -/
theorem toJobFilter_queue :
    f.toJobFilter.queue t = .ok (if f.has filterQueue && !hasWildcard f.queueName then
    (t.findQueue f.queueName).map fun r ↦ some r.1 else some none) := by
  unfold JobFilter.queue JersJobFilter.toJobFilter
  rcases f.has filterQueue with _ | _
  · rfl
  · rw [if_pos rfl]
    dsimp only
    rcases hasWildcard f.queueName with _ | _
    all_goals rfl

variable {env t f j}

/-- A job whose queue has the name that is asked for is in the queue that is found. -/
theorem JersJobFilter.Read.own_queue (hread : f.Read env t j) (hnames : QueueNamesDistinct t)
    (hq : f.toJobFilter.queue t = .ok (some q)) : f.has filterQueue = true → ∀ a, q = some a →
    j.queue = a := by
  rintro hset a rfl
  obtain ⟨queue, hqueue, hmatch⟩ := hread.queue hset
  rw [toJobFilter_queue, hset, Bool.true_and] at hq
  rcases hwild : hasWildcard f.queueName with _ | _
  · rw [hwild] at hq
    obtain ⟨⟨b, r⟩, hfound, hb⟩ := map_eq_some_iff.mp (ok.inj hq)
    obtain rfl : b = a := some.inj hb
    obtain ⟨hr, hname⟩ := Table.find?_some hfound
    rw [Matches, hwild, if_neg Bool.false_ne_true] at hmatch
    exact hnames _ _ _ _ hqueue hr (hmatch.trans (eq_of_beq hname).symm)
  · rw [hwild] at hq
    exact nomatch ok.inj hq

/-- No job meets a queue filter whose queue is not found. -/
theorem JersJobFilter.Read.queue_found (hread : f.Read env t j) :
    f.toJobFilter.queue t ≠ .ok none := by
  intro hq
  rw [toJobFilter_queue] at hq
  rcases hset : f.has filterQueue with _ | _
  · rw [hset] at hq
    exact nomatch ok.inj hq
  rcases hwild : hasWildcard f.queueName with _ | _
  · obtain ⟨queue, hqueue, hmatch⟩ := hread.queue hset
    rw [Matches, hwild, if_neg Bool.false_ne_true] at hmatch
    rw [hset, hwild] at hq
    have hnone := find?_none (map_eq_none_iff.mp (ok.inj hq)) hqueue
    exact Bool.false_ne_true (hnone.symm.trans (beq_iff_eq.mpr hmatch))
  · rw [hset, hwild] at hq
    exact nomatch ok.inj hq

/-- The query is tested, filtered and written as it asks: no test meets a null or freed pointer,
every job that meets the fields that are read meets the resources and the node too, and can be
written. -/
structure JersJobFilter.Served (f : JersJobFilter) (env : Env) (s : Server) : Prop where
  tested : ∀ q, f.toJobFilter.queue s.toTables = .ok (some q) → ∀ a j, s.jobTable.get? a = some j →
    ¬f.toJobFilter.Faults env s.toTables q j
  ignored : ∀ a j, s.jobTable.get? a = some j → j.internalState.deleted = false →
    f.Read env s.toTables j → f.Ignored env s.toTables j
  written : ∀ a j, s.jobTable.get? a = some j → j.internalState.deleted = false →
    f.Read env s.toTables j →
    (serializeJob s.toTables s.config.defaultJobNice f.toJobFilter.returnFields []
      j).toOption ≠ none

variable {s : Server} {c : Client}

/-- The search of a root client, with or without a queue that the filter names. -/
theorem jobsFor_root (env : Env) (s : Server) (hroot : c.uid = 0) (hid : f.jobid = 0) :
    jobsFor env c f.toJobFilter none [] s = match f.toJobFilter.queue s.toTables with
      | .error e => .error e
      | .ok none => .ok (.inl .noqueue, s)
      | .ok (some q) =>
        (selectFrom s.toTables (f.toJobFilter.accepts env s.toTables q none) s.jobTable.addrs).map
          fun as ↦ (.inr (as, f.toJobFilter.returnFields), s) := by
  have hall : c.readsAll = .ok true := if_pos hroot
  have hown : c.readsOwn s.config.selfPermission = .ok true := by
    rw [Client.readsOwn, hroot, if_pos]
    simp
  have hid' : f.toJobFilter.jobid = 0 := by
    show f.jobid.toNat = 0
    rw [hid]
    rfl
  have hbucket : f.toJobFilter.bucket none [] = .ok none := rfl
  have htest (q : Option Addr) : (fun j ↦ do
      return (← f.toJobFilter.accepts env s.toTables q none j) &&
        (true || (true && j.uid == c.uid))) =
      f.toJobFilter.accepts env s.toTables q none := by
    funext j
    rcases f.toJobFilter.accepts env s.toTables q none j with _ | b
    · rfl
    · exact congrArg ok (Bool.and_true b)
  simp only [jobsFor, hid', ne_eq, not_true_eq_false, if_false]
  rw [Exec.read_bind]
  simp only [searchJobs, hall, hown, ok_bind, hbucket, htest, map_none, getD_none]
  rcases f.toJobFilter.queue s.toTables with e | _ | q
  · rfl
  · rfl
  · simp only [ok_bind]
    rcases selectFrom s.toTables (f.toJobFilter.accepts env s.toTables q none)
      s.jobTable.addrs with _ | _
    all_goals rfl

/-- What is found is written. -/
theorem commandGetJob_found {fields : ℕ}
    (h : jobsFor env c f.toJobFilter none [] s = .ok (.inr (as, fields), s)) :
    commandGetJob env c f.toJobFilter none [] s = (jobsText s fields as).map fun text ↦
    (.jobs text, s) := by
  rw [commandGetJob, Exec.bind_of_ok h]
  dsimp only
  rw [Exec.read_bind]
  rcases jobsText s fields as with _ | _
  all_goals rfl

/-- Addresses in use, with their jobs. -/
theorem exists_rows (h : ∀ a ∈ as, ∃ j, s.jobTable.get? a = some j) :
    ∃ rows : List (Addr × Job), rows.map Prod.fst = as ∧ ∀ r ∈ rows,
    s.jobTable.get? r.1 = some r.2 := by
  induction as with
  | nil => exact ⟨[], rfl, fun _ hr ↦ nomatch hr⟩
  | cons a as ih =>
    obtain ⟨⟨j, hj⟩, hrest⟩ := forall_mem_cons.mp h
    obtain ⟨rows, rfl, hrows⟩ := ih hrest
    exact ⟨(a, j) :: rows, rfl, forall_mem_cons.mpr ⟨hj, hrows⟩⟩

/-- Jobs can be written one after the other if each of them can be. -/
theorem exists_jobsText_iff {fields : ℕ} (h : ∀ a ∈ as, ∃ j, s.jobTable.get? a = some j) :
    (∃ text, jobsText s fields as = .ok text) ↔ ∀ a ∈ as, ∀ j, s.jobTable.get? a = some j →
      (serializeJob s.toTables s.config.defaultJobNice fields [] j).toOption ≠ none := by
  obtain ⟨rows, rfl, hrows⟩ := exists_rows h
  rw [jobsText_rows fields hrows, ← toOption_ne_none_iff, ne_eq, textOf_eq_none_iff]
  constructor
  · intro hnone a ha j hj hbad
    obtain ⟨r, hr, rfl⟩ := List.mem_map.mp ha
    obtain rfl := some.inj ((hrows r hr).symm.trans hj)
    exact hnone ⟨r.2, List.mem_map_of_mem hr, hbad⟩
  · rintro hall ⟨j, hj, hbad⟩
    obtain ⟨r, hr, rfl⟩ := List.mem_map.mp hj
    exact hall r.1 (List.mem_map_of_mem hr) r.2 (hrows r hr) hbad

theorem selectFrom_sublist {accepts : Job → Except Fault Bool}
    (h : selectFrom t accepts as = .ok found) : found.Sublist as := by
  induction as generalizing found with
  | nil =>
    obtain rfl := ok.inj h
    exact .slnil
  | cons a as ih =>
    rw [selectFrom] at h
    rcases hj : t.jobTable.get? a with _ | j
    all_goals rw [hj] at h
    · contradiction
    obtain ⟨accepted, -, hrest⟩ := bind_eq_ok_iff.mp h
    obtain ⟨rest, hselect, hfound⟩ := bind_eq_ok_iff.mp hrest
    rcases accepted with _ | _
    all_goals obtain rfl := ok.inj hfound
    · exact (ih hselect).cons a
    · exact (ih hselect).cons_cons a

section

variable (hnames : QueueNamesDistinct s.toTables)
  (hq : f.toJobFilter.queue s.toTables = .ok (some q))
  (h : selectFrom s.toTables (f.toJobFilter.accepts env s.toTables q none) s.jobTable.addrs =
    .ok found)

include hnames hq h

/-- A search that goes through finds the jobs that meet the fields that are read. -/
theorem mem_found_iff (a : Addr) : a ∈ found ↔ ∃ j, s.jobTable.get? a = some j ∧
    j.internalState.deleted = false ∧ f.Read env s.toTables j := by
  have htest : ∀ j, (f.toJobFilter.accepts env s.toTables q none j).Decides
      (j.internalState.deleted = false ∧ f.Read env s.toTables j) := fun j ↦
    (accepts_decides env s.toTables f j q).congr
      (and_congr_right fun _ ↦ and_iff_left_of_imp fun hread ↦ hread.own_queue hnames hq)
  obtain ⟨htested, hmem⟩ := selectFrom_ok h
  rw [hmem a]
  constructor
  · rintro ⟨-, j, hj, hb⟩
    exact ⟨j, hj, (htest j true hb).mp rfl⟩
  · rintro ⟨j, hj, hdel, hread⟩
    have ha := mem_addrs_iff.mpr ⟨j, hj⟩
    obtain ⟨j', b, hj', hb⟩ := htested a ha
    obtain rfl := mem_unique hj hj'
    obtain rfl := (htest j b hb).mpr ⟨hdel, hread⟩
    exact ⟨ha, j, hj, hb⟩

/-- The jobs that are found can be written if each that meets the fields can be. -/
theorem found_written_iff (fields : ℕ) : (∃ text, jobsText s fields found = .ok text) ↔
      ∀ a j, s.jobTable.get? a = some j → j.internalState.deleted = false →
        f.Read env s.toTables j →
        (serializeJob s.toTables s.config.defaultJobNice fields [] j).toOption ≠ none := by
  have hmem := mem_found_iff hnames hq h
  have hused : ∀ a ∈ found, ∃ j, s.jobTable.get? a = some j := fun a ha ↦ by
    obtain ⟨j, hj, -⟩ := (hmem a).mp ha
    exact ⟨j, hj⟩
  rw [exists_jobsText_iff hused]
  constructor
  · intro hall a j hj hdel hread
    exact hall a ((hmem a).mpr ⟨j, hj, hdel, hread⟩) j hj
  · intro hall a ha j hj
    obtain ⟨j', hj', hdel, hread⟩ := (hmem a).mp ha
    obtain rfl := mem_unique hj hj'
    exact hall a j hj hdel hread

end

/-- **When a query is answered exactly.** -/
theorem answeredExactly_iff_served {item : MsgItem} (hroot : c.uid = 0)
    (hid : (deserializeGetJob item).jobid = 0) (hnames : QueueNamesDistinct s.toTables) :
    AnsweredExactly env c (deserializeGetJob item) s ↔ (deserializeGetJob item).Served env s := by
  generalize deserializeGetJob item = f at hid ⊢
  have hjobs := jobsFor_root env s hroot hid
  rcases hq : f.toJobFilter.queue s.toTables with e | _ | q
  all_goals rw [hq] at hjobs
  · exact absurd ((toJobFilter_queue s.toTables f).symm.trans hq) (by simp)
  · -- the queue is not found, and no job is asked for
    have hnone : ∀ j, ¬f.Read env s.toTables j := fun j hread ↦ hread.queue_found hq
    refine iff_of_true ⟨⟨_, by rw [commandGetJob, Exec.bind_of_ok hjobs]; rfl⟩, _, hjobs,
      .inl ⟨rfl, ?_⟩⟩ ⟨?_, ?_, ?_⟩
    · rintro a ⟨j, -, -, hread, -⟩
      exact hnone j hread
    · exact fun q' hq' ↦ absurd (hq.symm.trans hq') (by simp)
    · exact fun a j _ _ hread ↦ absurd hread (hnone j)
    · exact fun a j _ _ hread ↦ absurd hread (hnone j)
  dsimp only at hjobs
  constructor
  · rintro ⟨⟨reply, hreply⟩, found, hfound, hcases⟩
    obtain ⟨as, hselect, hsame⟩ := map_eq_ok_iff.mp (hjobs.symm.trans hfound)
    obtain rfl := (Prod.mk.inj hsame).1
    rcases hcases with ⟨hinl, -⟩ | ⟨as', fields, hinr, -, hasks⟩
    · contradiction
    obtain ⟨rfl, rfl⟩ := Prod.mk.inj (Sum.inr.inj hinr)
    rw [commandGetJob_found hfound] at hreply
    obtain ⟨text, htext, -⟩ := map_eq_ok_iff.mp hreply
    refine ⟨?_, ?_, (found_written_iff hnames hq hselect _).mp ⟨text, htext⟩⟩
    · intro q' hq' a j hj
      obtain rfl := some.inj (ok.inj (hq.symm.trans hq'))
      obtain ⟨j', b, hj', hb⟩ := (selectFrom_ok hselect).1 a (mem_addrs_iff.mpr ⟨j, hj⟩)
      obtain rfl := mem_unique hj hj'
      exact toOption_ne_none_iff.mpr ⟨b, hb⟩
    · intro a j hj hdel hread
      have ha := (mem_found_iff hnames hq hselect a).mpr ⟨j, hj, hdel, hread⟩
      obtain ⟨j', hj', -, -, hignored⟩ := (hasks a).mp ha
      obtain rfl := mem_unique hj hj'
      exact hignored
  · intro hserved
    obtain ⟨as, hselect⟩ : ∃ as, selectFrom s.toTables (f.toJobFilter.accepts env s.toTables q none)
        s.jobTable.addrs = .ok as := by
      refine selectFrom_runs fun a ha ↦ ?_
      obtain ⟨j, hj⟩ := mem_addrs_iff.mp ha
      obtain ⟨b, hb⟩ := toOption_ne_none_iff.mp (hserved.tested q hq a j hj)
      exact ⟨j, b, hj, hb⟩
    rw [hselect] at hjobs
    obtain ⟨text, htext⟩ := (found_written_iff hnames hq hselect _).mpr hserved.written
    have hnodup : as.Nodup := (selectFrom_sublist hselect).nodup s.jobTable.nodup
    refine ⟨⟨.jobs text, ?_⟩, _, hjobs, .inr ⟨as, _, rfl, hnodup, fun a ↦ ?_⟩⟩
    · rw [commandGetJob_found hjobs, htext]
      rfl
    · rw [mem_found_iff hnames hq hselect a]
      refine exists_congr fun j ↦ and_congr_right fun hj ↦ and_congr_right fun hdel ↦ ?_
      exact (and_iff_left_of_imp (hserved.ignored a j hj hdel)).symm

end

/-! ### Concrete queries -/

/-- The queues are tested by their names. -/
theorem queueNamesDistinct_of_all {t : Tables}
    (h : (t.queueTable.all fun a q ↦ t.queueTable.all fun b r ↦ q.name != r.name || a == b) =
      true) :
    QueueNamesDistinct t := by
  intro a b q r hq hr hname
  have hab := all_iff.mp (all_iff.mp h a q hq) b r hr
  rcases Bool.or_eq_true_iff.mp hab with hne | heq
  · exact absurd hname (bne_iff_ne.mp hne)
  · exact eq_of_beq heq

namespace Sample

/-- A query for the jobs on another node, and one for the jobs that require a resource. -/
def askNode : MsgItem := [⟨.node, .string (some "other".toList)⟩]

def askResources : MsgItem := [⟨.resources, .stringarray [some "r".toList]⟩]

def askName : MsgItem := [⟨.jobname, .string (some "job_1".toList)⟩]

/-- The query of a root client is answered with a job that has the property. -/
def answeredWith (item : MsgItem) (p : Job → Bool) (s : Server) : Bool :=
  match jobsFor env root (deserializeGetJob item).toJobFilter none [] s with
  | .ok (.inr (as, _), _) => as.any fun a ↦ (s.jobTable.get? a).any p
  | _ => false

end Sample

/-- A job in an answer that is exact is asked for. -/
theorem exists_ignored_of_answeredWith {item : MsgItem} {p : Job → Bool} {s : Server}
    (h : answeredWith item p s = true)
    (hexact : AnsweredExactly Sample.env root (deserializeGetJob item) s) :
    ∃ j, p j = true ∧ (deserializeGetJob item).Ignored Sample.env s.toTables j := by
  obtain ⟨-, found, hfound, hcases⟩ := hexact
  rw [answeredWith, hfound] at h
  rcases hcases with ⟨rfl, -⟩ | ⟨as, fields, rfl, -, hmem⟩
  · exact absurd h Bool.false_ne_true
  obtain ⟨a, ha, hj⟩ := List.any_eq_true.mp h
  obtain ⟨j, hj, hp⟩ := (Option.any_eq_true _ _).mp hj
  obtain ⟨j', hj', -, -, hignored⟩ := (hmem a).mp ha
  obtain rfl := mem_unique hj hj'
  exact ⟨j, hp, hignored⟩

/-- A job on the only node, which requires nothing, is in the answer to both queries. -/
theorem not_answeredExactly_ignored : ∃ s, Runs anyEvent config hosts s ∧
    ¬AnsweredExactly Sample.env root (deserializeGetJob askNode) s ∧
    ¬AnsweredExactly Sample.env root (deserializeGetJob askResources) s := by
  obtain ⟨s, hrun, hnode, hres⟩ := exists_runs anyEvent config hosts
    (events [.client root Sample.addQueue, .client root Sample.addJob])
    (fun s ↦ answeredWith askNode (fun j ↦
        (s.queueTable.get? j.queue).all fun q ↦ q.host != "other".toList) s = true ∧
      answeredWith askResources (fun j ↦ j.reqResources.isEmpty) s = true) (by decide +kernel)
  refine ⟨s, hrun, fun hexact ↦ ?_, fun hexact ↦ ?_⟩
  · obtain ⟨j, hother, hignored⟩ := exists_ignored_of_answeredWith hnode hexact
    obtain ⟨q, hq, hmatch⟩ := hignored.node (by decide)
    rw [hq] at hother
    have hhost : q.host = "other".toList := hmatch
    exact bne_iff_ne.mp hother hhost
  · obtain ⟨j, hempty, hignored⟩ := exists_ignored_of_answeredWith hres hexact
    obtain ⟨_, -, r, hr, -⟩ := hignored.resources (by decide) (some "r".toList) (by decide)
    rw [List.isEmpty_iff.mp hempty] at hr
    exact nomatch hr

/-- A query by the name that the job has been given. -/
theorem answeredExactly_by_name : ∃ s, Runs anyEvent config hosts s ∧
    answeredWith askName (fun _ ↦ true) s = true ∧ QueueNamesDistinct s.toTables ∧
    AnsweredExactly Sample.env root (deserializeGetJob askName) s := by
  obtain ⟨s, hrun, hanswer, hqueues, hjobs⟩ := exists_runs anyEvent config hosts
    (events [.client root Sample.addQueue, .client root Sample.addJob])
    (fun s ↦ answeredWith askName (fun _ ↦ true) s = true ∧
      (s.queueTable.all fun a q ↦ s.queueTable.all fun b r ↦ q.name != r.name || a == b) = true ∧
      (s.jobTable.all fun _ j ↦
        ((deserializeGetJob askName).toJobFilter.accepts Sample.env s.toTables none none
          j).toOption.isSome &&
        (serializeJob s.toTables s.config.defaultJobNice 0 [] j).toOption.isSome) = true)
    (by decide +kernel)
  have hnames := queueNamesDistinct_of_all hqueues
  have hjob : ∀ a j, s.jobTable.get? a = some j → _ := fun a j hj ↦
    Bool.and_eq_true_iff.mp (all_iff.mp hjobs a j hj)
  refine ⟨s, hrun, hanswer, hnames,
    (answeredExactly_iff_served rfl (by decide) hnames).mpr ⟨?_, ?_, ?_⟩⟩
  · intro q hq a j hj hfault
    obtain rfl : none = q := some.inj (ok.inj hq)
    rw [JobFilter.Faults, ← not_isSome_iff_eq_none] at hfault
    exact hfault (hjob a j hj).1
  · exact fun _ _ _ _ _ ↦ ⟨fun h ↦ absurd h (by decide), fun h ↦ absurd h (by decide)⟩
  · intro a j hj _ _ hnone
    exact absurd (hjob a j hj).2 (not_isSome_iff_eq_none.mpr hnone)

end Jers
