import Jers.Lib.Buckets
import Jers.Server.CommandGet
import Jers.Server.Loading

/-!
# The tag index

With `index_tag` in the configuration, the daemon keeps the jobs in buckets by the value of this tag
(`tags.c`), and a query that asks for a value looks through its bucket only, without a look at the
tag. `indexStep` is the daemon with its index: what each function does to the index is added to what
it does to the server. A job that is freed leaves its bucket, a new job comes into the bucket of the
first tag with the key, and the tag commands move a job. A modify request puts other tags in the
place of those of a job and leaves the index alone.

If no modify request changes the indexed tag of a job and no job has it twice (`indexKept`), the
buckets are exact and a search through them finds what a scan finds (`indexRight_of_runs`).
-/

namespace Jers

open Exec List Option Table Sample Except

/-! ### The index -/

/-- `server.index_tag_table` with the `index_table` pointers of the jobs. -/
abbrev Index := Buckets Str Addr

/-- `addIndexTag`. The value is looked up by its text. -/
def addIndexTag (ix : Index) (a : Addr) (value : Option Str) : Except Fault Index :=
  match value with
  | none => .error .nullDeref
  | some v => .ok (ix.add a v)

/-- What `addJob` does to the index. -/
def indexNew (key : Str) (ix : Index) (a : Addr) (tags : List (Str × Option Str)) :
    Except Fault Index :=
  match tags.find? fun t ↦ t.1 = key with
  | none => .ok ix
  | some t => addIndexTag ix a t.2

/-- What `command_set_tag` does to the index. -/
def indexSet (key : Str) (ix : Index) (a : Addr) (tags : List (Str × Option Str)) (tag : Str)
    (value : Option Str) : Except Fault Index :=
  if tag = key then
    addIndexTag (if tags.any fun t ↦ t.1 = tag then ix.del a else ix) a value
  else
    .ok ix

/-- What `command_del_tag` does to the index. -/
def indexUnset (key : Str) (ix : Index) (a : Addr) (tags : List (Str × Option Str)) (tag : Str) :
    Index :=
  if tag = key ∧ tags.any fun t ↦ t.1 = tag then ix.del a else ix

/-- What becomes of the index with the jobs that an event has freed and those that it has added. -/
def indexMoved (key : Str) (s s' : Server) (ix : Index) : Except Fault Index :=
  let freed := s.jobTable.addrs.filter fun a ↦ (s'.jobTable.get? a).isNone
  let added := s'.jobTable.rows.filter fun r ↦ (s.jobTable.get? r.1).isNone
  added.foldlM (fun ix r ↦ indexNew key ix r.1 r.2.tags) (freed.foldl Buckets.del ix)

/-- The daemon and its index. -/
structure Indexed where
  server : Server
  index : Index := {}

/-- What happens to the daemon: a load, an event, or `cleanupIndexTag`. -/
inductive IndexEvent
  | load (fileName text : Str)
  | event (env : Env) (e : Event)
  | cleanupIndexTag

/-- The index after a command. -/
def indexCommand (key : Str) (cmd : Command) (reply : Reply) (s s' : Server) (ix : Index) :
    Except Fault Index :=
  match cmd with
  | .setTag jobid tag value =>
    match s.findJob jobid with
    | some (a, j) => if reply.status = 0 then indexSet key ix a j.tags tag value else .ok ix
    | none => .ok ix
  | .delTag jobid tag =>
    match s.findJob jobid with
    | some (a, j) => if reply.status = 0 then .ok (indexUnset key ix a j.tags tag) else .ok ix
    | none => .ok ix
  | _ => indexMoved key s s' ix

/-- One step of the daemon with its index. A job that cannot be loaded ends the daemon. -/
def indexStep (key : Str) (x : Indexed) : IndexEvent → Except Fault Indexed
  | .event env (.client c cmd) => do
    let (reply, s') ← runCommand env c cmd x.server
    return { server := s', index := ← indexCommand key cmd reply x.server s' x.index }
  | .event env e => do
    let (_, s') ← handle env e x.server
    return { server := s', index := ← indexMoved key x.server s' x.index }
  | .load fileName text => do
    let j ← stateLoadJob x.server.toTables fileName text
    let (rc, s') ← addJob j false x.server
    if rc ≠ 0 then
      throw .errorDie
    return { server := s', index := ← indexMoved key x.server s' x.index }
  | .cleanupIndexTag => .ok { x with index := x.index.clean }

/-! ### The values of the indexed tag -/

/-- The values of all tags with a key. -/
def keyed (key : Str) (tags : List (Str × Option Str)) : List (Option Str) :=
  (tags.filter fun t ↦ t.1 = key).map Prod.snd

section

variable {key tag : Str} {value : Option Str} {tags : List (Str × Option Str)}

theorem keyed_cons (t : Str × Option Str) :
    keyed key (t :: tags) = if t.1 = key then t.2 :: keyed key tags else keyed key tags := by
  by_cases h : t.1 = key
  · simp [keyed, h]
  · simp [keyed, h]

theorem any_iff_keyed_ne_nil : (tags.any fun t ↦ t.1 = key) = true ↔ keyed key tags ≠ [] := by
  induction tags with
  | nil => simp [keyed]
  | cons t tags ih =>
    rw [keyed_cons]
    by_cases h : t.1 = key
    · simp [h]
    · simpa [h] using ih

theorem find?_eq_head : (tags.find? fun t ↦ t.1 = key).map Prod.snd = (keyed key tags).head? := by
  rw [keyed, head?_map, head?_filter]

theorem keyed_setTag : keyed key (setTag tag value tags) =
    if tag = key then value :: (keyed key tags).tail else keyed key tags := by
  induction tags with
  | nil => by_cases h : tag = key <;> simp [setTag, keyed, h]
  | cons t tags ih =>
    rw [setTag, keyed_cons]
    by_cases ht : t.1 = tag
    · rw [if_pos ht, keyed_cons, ht]
      split <;> rfl
    · rw [if_neg ht, keyed_cons, ih]
      split_ifs <;> simp_all

theorem keyed_delTag :
    keyed key (delTag tag tags) = if tag = key then (keyed key tags).tail else keyed key tags := by
  induction tags with
  | nil => by_cases h : tag = key <;> simp [delTag, keyed]
  | cons t tags ih =>
    rw [delTag, keyed_cons]
    by_cases ht : t.1 = tag
    · rw [if_pos ht, ht]
      split <;> rfl
    · rw [if_neg ht, keyed_cons, ih]
      split_ifs <;> simp_all

end

/-! ### The index and the tags -/

/-- What the index has of a job, as the values of its tag would be. -/
def Index.valuesOf (ix : Index) (a : Addr) : List (Option Str) := (ix.keyOf a).toList.map some

/-- The values of the indexed tag of the job at an address. -/
def Tables.valuesAt (t : Tables) (key : Str) (a : Addr) : List (Option Str) :=
  ((t.jobTable.get? a).map fun j ↦ keyed key j.tags).getD []

/-- The index has each job under the one value of its tag. -/
structure Index.Exact (key : Str) (t : Tables) (ix : Index) : Prop where
  sound : ix.Sound
  values : ∀ a, ix.valuesOf a = t.valuesAt key a

section Fragments

variable {key : Str} {ix ix' : Index} {a : Addr} {tags : List (Str × Option Str)}

theorem Index.valuesOf_eq_nil_iff : ix.valuesOf a = [] ↔ ix.keyOf a = none := by
  cases h : ix.keyOf a <;> simp [Index.valuesOf, h]

theorem Index.tail_valuesOf : (ix.valuesOf a).tail = [] := by
  cases h : ix.keyOf a <;> simp [Index.valuesOf, h]

/-- `addIndexTag` for a job without a bucket. -/
theorem addIndexTag_ok {value : Option Str} (hs : ix.Sound) (ha : ix.keyOf a = none)
    (h : addIndexTag ix a value = .ok ix') : ix'.Sound ∧
      ∀ b, ix'.valuesOf b = if b = a then [value] else ix.valuesOf b := by
  cases value with
  | none => exact nomatch h
  | some v =>
    obtain rfl := ok.inj h
    refine ⟨hs.add ha v, fun b ↦ ?_⟩
    rw [Index.valuesOf, Buckets.keyOf_add, Index.valuesOf]
    split <;> rfl

theorem indexNew_ok (hs : ix.Sound) (ha : ix.keyOf a = none) (hone : (keyed key tags).length ≤ 1)
    (h : indexNew key ix a tags = .ok ix') : ix'.Sound ∧
      ∀ b, ix'.valuesOf b = if b = a then keyed key tags else ix.valuesOf b := by
  have hhead : (tags.find? fun t ↦ t.1 = key).map Prod.snd = (keyed key tags).head? := find?_eq_head
  rw [indexNew] at h
  cases hfind : tags.find? fun t ↦ t.1 = key with
  | none =>
    rw [hfind] at h hhead
    obtain rfl := ok.inj h
    have hnil : keyed key tags = [] := head?_eq_none_iff.mp hhead.symm
    refine ⟨hs, fun b ↦ ?_⟩
    split
    · next hb => rw [hb, hnil, Index.valuesOf_eq_nil_iff.mpr ha]
    · rfl
  | some t =>
    rw [hfind] at h hhead
    obtain ⟨hs', hvalues⟩ := addIndexTag_ok hs ha h
    have hkeyed : keyed key tags = [t.2] := by
      obtain ⟨rest, hrest⟩ := head?_eq_some_iff.mp hhead.symm
      rw [hrest, length_cons] at hone
      rw [hrest, eq_nil_of_length_eq_zero (Nat.le_zero.mp (Nat.succ_le_succ_iff.mp hone))]
    rw [hkeyed]
    exact ⟨hs', hvalues⟩

theorem indexSet_ok {tag : Str} {value : Option Str} (hs : ix.Sound)
    (hj : ix.valuesOf a = keyed key tags) (h : indexSet key ix a tags tag value = .ok ix') :
    ix'.Sound ∧
      ∀ b, ix'.valuesOf b = if b = a then keyed key (setTag tag value tags) else ix.valuesOf b := by
  rw [indexSet] at h
  split at h
  · next htag =>
    subst htag
    have htail : (keyed tag tags).tail = [] := hj ▸ Index.tail_valuesOf
    -- the job is out of its bucket before it comes into another one
    have hout : ((if tags.any fun t ↦ t.1 = tag then ix.del a else ix) : Index).Sound ∧
        ((if tags.any fun t ↦ t.1 = tag then ix.del a else ix) : Index).keyOf a = none ∧
        ∀ b, b ≠ a → ((if tags.any fun t ↦ t.1 = tag then ix.del a else ix) : Index).valuesOf b =
          ix.valuesOf b := by
      split
      · refine ⟨hs.del a, by simp, fun b hb ↦ ?_⟩
        rw [Index.valuesOf, Buckets.keyOf_del, if_neg hb, Index.valuesOf]
      · next hany =>
        have hnil : keyed tag tags = [] := not_not.mp (mt any_iff_keyed_ne_nil.mpr hany)
        exact ⟨hs, Index.valuesOf_eq_nil_iff.mp (hj.trans hnil), fun _ _ ↦ rfl⟩
    obtain ⟨hs', hvalues⟩ := addIndexTag_ok hout.1 hout.2.1 h
    refine ⟨hs', fun b ↦ ?_⟩
    rw [hvalues, keyed_setTag, if_pos rfl, htail]
    split
    · rfl
    · next hb => exact hout.2.2 b hb
  · next htag =>
    obtain rfl := ok.inj h
    refine ⟨hs, fun b ↦ ?_⟩
    rw [keyed_setTag, if_neg htag]
    split
    · next hb => rw [hb, hj]
    · rfl

theorem indexUnset_ok (tag : Str) (hs : ix.Sound) (hj : ix.valuesOf a = keyed key tags) :
    (indexUnset key ix a tags tag).Sound ∧ ∀ b, (indexUnset key ix a tags tag).valuesOf b =
      if b = a then keyed key (delTag tag tags) else ix.valuesOf b := by
  rw [indexUnset]
  by_cases htag : tag = key
  · subst htag
    have htail : (keyed tag tags).tail = [] := hj ▸ Index.tail_valuesOf
    rw [keyed_delTag, if_pos rfl, htail]
    split
    · refine ⟨hs.del a, fun b ↦ ?_⟩
      rw [Index.valuesOf, Buckets.keyOf_del, Index.valuesOf]
      split <;> rfl
    · next hany =>
      have hnil : keyed tag tags = [] := by
        by_contra hne
        exact hany ⟨rfl, any_iff_keyed_ne_nil.mpr hne⟩
      refine ⟨hs, fun b ↦ ?_⟩
      split
      · next hb => rw [hb, hj, hnil]
      · rfl
  · rw [if_neg fun h ↦ htag h.1, keyed_delTag, if_neg htag]
    refine ⟨hs, fun b ↦ ?_⟩
    split
    · next hb => rw [hb, hj]
    · rfl

end Fragments

/-! ### Jobs that come and go -/

section

variable {key : Str} {s s' : Server} {ix ix' : Index}

theorem foldl_del (l : List Addr) (hs : ix.Sound) : (l.foldl Buckets.del ix).Sound ∧
    ∀ b, (l.foldl Buckets.del ix).keyOf b = if b ∈ l then none else ix.keyOf b := by
  induction l generalizing ix with
  | nil => exact ⟨hs, fun b ↦ by simp⟩
  | cons a l ih =>
    obtain ⟨hs', hkeys⟩ := ih (hs.del a)
    refine ⟨hs', fun b ↦ ?_⟩
    rw [foldl_cons, hkeys, Buckets.keyOf_del]
    by_cases hb : b ∈ l
    · simp [hb]
    · by_cases hba : b = a <;> simp [hb, hba]

theorem foldlM_indexNew {rows : List (Addr × Job)} (hs : ix.Sound)
    (hnodup : (rows.map Prod.fst).Nodup) (hfree : ∀ r ∈ rows, ix.keyOf r.1 = none)
    (hone : ∀ r ∈ rows, (keyed key r.2.tags).length ≤ 1)
    (h : rows.foldlM (fun ix r ↦ indexNew key ix r.1 r.2.tags) ix = .ok ix') : ix'.Sound ∧
      (∀ r ∈ rows, ix'.valuesOf r.1 = keyed key r.2.tags) ∧
      ∀ b, b ∉ rows.map Prod.fst → ix'.valuesOf b = ix.valuesOf b := by
  induction rows generalizing ix with
  | nil =>
    obtain rfl := ok.inj h
    exact ⟨hs, fun r hr ↦ absurd hr not_mem_nil, fun _ _ ↦ rfl⟩
  | cons r rows ih =>
    rw [foldlM_cons] at h
    obtain ⟨ix₁, hfirst, hrest⟩ := bind_eq_ok_iff.mp h
    rw [map_cons, nodup_cons] at hnodup
    obtain ⟨hs₁, hvalues₁⟩ :=
      indexNew_ok hs (hfree r mem_cons_self) (hone r mem_cons_self) hfirst
    -- the first job is none of the others
    have hother {r' : Addr × Job} (hr' : r' ∈ rows) : r'.1 ≠ r.1 := fun heq ↦
      hnodup.1 (heq ▸ List.mem_map_of_mem hr')
    obtain ⟨hs', hnew, hold⟩ := ih hs₁ hnodup.2
      (fun r' hr' ↦ by
        rw [← Index.valuesOf_eq_nil_iff, hvalues₁, if_neg (hother hr'), Index.valuesOf_eq_nil_iff]
        exact hfree r' (mem_cons_of_mem _ hr'))
      (fun r' hr' ↦ hone r' (mem_cons_of_mem _ hr')) hrest
    refine ⟨hs', fun r' hr' ↦ ?_, fun b hb ↦ ?_⟩
    · rcases mem_cons.mp hr' with rfl | hr'
      · rw [hold _ hnodup.1, hvalues₁, if_pos rfl]
      · exact hnew r' hr'
    · rw [map_cons, mem_cons, not_or] at hb
      rw [hold b hb.2, hvalues₁, if_neg hb.1]

/-- Every job has the values it had before, or is new and has one value at most. -/
structure KeyedFrom (key : Str) (s : Server) (c : Core) : Prop where
  next : s.jobTable.next ≤ c.jobTable.next
  jobs : ∀ a j', c.jobTable.get? a = some j' →
    (∃ j, s.jobTable.get? a = some j ∧ keyed key j'.tags = keyed key j.tags) ∨
      (s.jobTable.next ≤ a ∧ (keyed key j'.tags).length ≤ 1)

theorem KeyedFrom.refl (key : Str) (s : Server) : KeyedFrom key s s.toCore :=
  ⟨le_rfl, fun _ j hj ↦ .inl ⟨j, hj, rfl⟩⟩

/-- **The index follows the jobs that come and go.** -/
theorem Index.Exact.moved (h : ix.Exact key s.toTables) (hfrom : KeyedFrom key s s'.toCore)
    (hmoved : indexMoved key s s' ix = .ok ix') : ix'.Exact key s'.toTables := by
  rw [indexMoved] at hmoved
  obtain ⟨hs₁, hkeys⟩ :=
    foldl_del (s.jobTable.addrs.filter fun a ↦ (s'.jobTable.get? a).isNone) h.sound
  -- a job that is not in the table has no bucket
  have hnone {b : Addr} (hb : s.jobTable.get? b = none) : ix.keyOf b = none := by
    rw [← Index.valuesOf_eq_nil_iff, h.values, Tables.valuesAt, hb]
    rfl
  have hadded {r : Addr × Job}
      (hr : r ∈ s'.jobTable.rows.filter fun r ↦ (s.jobTable.get? r.1).isNone) :
      s'.jobTable.get? r.1 = some r.2 ∧ s.jobTable.get? r.1 = none := by
    obtain ⟨hrow, hold⟩ := mem_filter.mp hr
    exact ⟨mem_rows_iff.mp hrow, isNone_iff_eq_none.mp hold⟩
  obtain ⟨hs', hnew, hold⟩ := foldlM_indexNew hs₁
    (s'.jobTable.nodup.sublist (filter_sublist.map Prod.fst))
    (fun r hr ↦ by
      rw [hkeys]
      split
      · rfl
      · exact hnone (hadded hr).2)
    (fun r hr ↦ by
      obtain ⟨hget, hgone⟩ := hadded hr
      rcases hfrom.jobs r.1 r.2 hget with ⟨j, hj, -⟩ | ⟨-, hone⟩
      · exact nomatch hgone.symm.trans hj
      · exact hone) hmoved
  refine ⟨hs', fun b ↦ ?_⟩
  rw [Tables.valuesAt]
  cases hb' : s'.jobTable.get? b with
  | none =>
    have hout :
        b ∉ (s'.jobTable.rows.filter fun r ↦ (s.jobTable.get? r.1).isNone).map Prod.fst := by
      intro hmem
      obtain ⟨r, hr, rfl⟩ := List.mem_map.mp hmem
      exact nomatch hb'.symm.trans (hadded hr).1
    rw [hold b hout]
    refine Index.valuesOf_eq_nil_iff.mpr ?_
    rw [hkeys]
    split
    · rfl
    · next hkept =>
      cases hb : s.jobTable.get? b with
      | none => exact hnone hb
      | some j =>
        refine absurd (mem_filter.mpr ⟨?_, by simp [hb']⟩) hkept
        exact mem_addrs_iff.mpr ⟨j, hb⟩
  | some j' =>
    cases hb : s.jobTable.get? b with
    | none =>
      exact hnew (b, j') (mem_filter.mpr ⟨mem_rows_iff.mpr hb', by simp [hb]⟩)
    | some j =>
      have hout :
          b ∉ (s'.jobTable.rows.filter fun r ↦ (s.jobTable.get? r.1).isNone).map Prod.fst := by
        intro hmem
        obtain ⟨r, hr, rfl⟩ := List.mem_map.mp hmem
        exact nomatch hb.symm.trans (hadded hr).2
      have hkept : b ∉ s.jobTable.addrs.filter fun a ↦ (s'.jobTable.get? a).isNone := fun hmem ↦
        absurd (mem_filter.mp hmem).2 (by simp [hb'])
      have hsame : keyed key j'.tags = keyed key j.tags := by
        rcases hfrom.jobs b j' hb' with ⟨i, hi, hsame⟩ | ⟨hle, -⟩
        · obtain rfl := mem_unique hb hi
          exact hsame
        · exact absurd (lt_next hb) (not_lt.mpr hle)
      rw [hold b hout, Index.valuesOf, hkeys, if_neg hkept]
      show ix.valuesOf b = keyed key j'.tags
      rw [h.values, Tables.valuesAt, hb, hsame]
      rfl

end

/-! ### Events -/

/-- No modify request changes the indexed tag of a job, and no new job has it twice. -/
def indexKept (key : Str) (x : Indexed) : IndexEvent → Bool
  | .load fileName text => (stateLoadJob x.server.toTables fileName text).toOption.all fun j ↦
      decide ((keyed key j.tags).length ≤ 1)
  | .event _ (.client _ (.addJob ja)) => decide ((keyed key ja.tags).length ≤ 1)
  | .event _ (.client _ (.modJob mj)) => mj.tags.all fun tags ↦
      (x.server.findJob mj.jobid).all fun r ↦ keyed key tags == keyed key r.2.tags
  | _ => true

variable {j : Job} {v : Str}

section

variable {key : Str} {env : Env} {e : Event} {s : Server} {ix : Index} {c c' : Core}

/-- The tag commands. -/
def Event.setsTags : Event → Bool
  | .client _ (.setTag ..) | .client _ (.delTag ..) => true
  | _ => false

theorem Allowed.shift_keyed {a : Addr} {j' : Job} {k : Cost} (hno : e.setsTags = false)
    (hgood : indexKept key ⟨s, ix⟩ (.event env e) = true)
    (h : Allowed env s e c (.shift a j j' k)) : keyed key j'.tags = keyed key j.tags := by
  cases h with
  | job _ hm =>
    cases hm with
    | @modify mj _ _ _ _ _ _ hfound =>
      show keyed key (mj.tags.getD j.tags) = _
      cases htags : mj.tags with
      | none => rfl
      | some tags => simpa [indexKept, htags, hfound] using hgood
    | setTag | delTag => exact nomatch hno
    | _ => rfl
  | queue _ hm | res _ hm => cases hm
  | agent hm =>
    cases hm with
    | recon =>
      simp only [Job.reconciled, Job.reconFinish, Job.changed]
      split_ifs <;> rfl
    | _ => rfl
  | _ => rfl

theorem KeyedFrom.move {l : Label} (hno : e.setsTags = false)
    (hgood : indexKept key ⟨s, ix⟩ (.event env e) = true) (h : KeyedFrom key s c)
    (hl : Allowed env s e c l) (hm : Move l c c') : KeyedFrom key s c' := by
  refine ⟨h.next.trans hm.frame.jobNext, hm.jobs_all h.jobs ?_ ?_⟩
  · rintro a j j' k rfl hj
    rw [hl.shift_keyed hno hgood]
    exact hj
  · rintro j j' k rfl
    refine .inr ⟨h.next, ?_⟩
    obtain ⟨_, _, rfl, hsub⟩ := hl.submitted
    cases hsub with
    | submit => exact of_decide_eq_true hgood

end

/-! ### The tag commands -/

section

variable {key tag : Str} {env : Env} {s s' : Server} {ix ix' : Index} {c : Client} {reply : Reply}
  {jobid : ℕ}

/-- A tag command is refused, or changes the tags of the job. -/
def TagsEdited (jobid : ℕ) (f : List (Str × Option Str) → List (Str × Option Str)) (reply : Reply)
    (s s' : Server) : Prop :=
  (reply.status ≠ 0 ∧ s = s') ∨ (reply.status = 0 ∧ ∃ a j, s.findJob jobid = some (a, j) ∧
    s'.recovery = s.recovery ∧ s'.jobTable =
      s.jobTable.modify a fun _ ↦ { j with tags := f j.tags, obj := j.obj.updated true })

variable {f : List (Str × Option Str) → List (Str × Option Str)} {value : Option Str} {a : Addr}

theorem TagsEdited.of_error {o : Option Client}
    {st : ℤ} {code : ErrCode} {text : Option String} (hst : st ≠ 0)
    (h : (pure (sendError o st code text) : Daemon Reply) s = .ok (reply, s')) :
    TagsEdited jobid f reply s s' := by
  obtain ⟨rfl, rfl⟩ := pure_ok_iff.mp h
  exact .inl ⟨hst, rfl⟩

theorem editTags_edited
    (hfound : s.findJob jobid = some (a, j)) (h : editTags (some c) a f s = .ok (reply, s')) :
    TagsEdited jobid f reply s s' := by
  have hshift := editTags_shift (Table.find?_some hfound).1 h
  have hstatus : reply.status = 0 := by
    obtain ⟨_, t, -, h₁⟩ := bind_ok_iff.mp h
    obtain ⟨_, u, -, h₂⟩ := bind_ok_iff.mp h₁
    obtain ⟨_, v, -, hsend⟩ := bind_ok_iff.mp h₂
    obtain ⟨rfl, -⟩ := pure_ok_iff.mp hsend
    rfl
  exact .inr ⟨hstatus, a, j, hfound, hshift.recovery, hshift.jobs⟩

theorem commandTag_edits {check : Job → Bool} {code : ErrCode} :
    Post (commandTag (some c) jobid check code f) s fun r s' ↦ TagsEdited jobid f r s s' := by
  refine .read (.keep deniedPerm_ok fun _ _ ↦ .ite (fun _ _ _ ↦ .of_error (by decide)) fun _ ↦ ?_)
  cases hfound : s.findJob jobid with
  | none => exact fun _ _ ↦ .of_error (by decide)
  | some r =>
    exact .ite (fun _ _ _ ↦ .of_error one_ne_zero) fun _ _ _ ↦ editTags_edited hfound

/-- A command that `runCommand` does not run is refused. -/
theorem runCommand_edits {cmd : Command} (h : runCommand env c cmd s = .ok (reply, s'))
    (hcmd : ∀ c', Post (cmd.run env (some c')) s fun r s' ↦ TagsEdited jobid f r s s') :
    TagsEdited jobid f reply s s' := by
  obtain ⟨rfl, _, _, _, rfl⟩ | ⟨c', -, -, hrun⟩ := runCommand_checked h
  · exact .inl ⟨one_ne_zero, rfl⟩
  · exact hcmd c' hrun

/-- The index after the tags of one job have been changed in both. -/
theorem Index.Exact.edited (h : ix.Exact key s.toTables) (hj : s.jobTable.get? a = some j)
    (hjobs : s'.jobTable =
      s.jobTable.modify a fun _ ↦ { j with tags := f j.tags, obj := j.obj.updated true })
    (hs : ix'.Sound)
    (hvalues : ∀ b, ix'.valuesOf b = if b = a then keyed key (f j.tags) else ix.valuesOf b) :
    ix'.Exact key s'.toTables := by
  refine ⟨hs, fun b ↦ ?_⟩
  rw [hvalues, Tables.valuesAt, hjobs]
  by_cases hb : b = a
  · subst hb
    rw [if_pos rfl, get?_modify_self hj]
    rfl
  · rw [if_neg hb, get?_modify_of_ne hb, h.values]
    rfl

theorem Index.Exact.at_job (h : ix.Exact key s.toTables)
    (hj : s.jobTable.get? a = some j) : ix.valuesOf a = keyed key j.tags := by
  rw [h.values, Tables.valuesAt, hj]
  rfl

/-- The index after a tag command, which does `g` to it if it is accepted. -/
theorem Index.Exact.tagged {g : Addr → Job → Except Fault Index} (h : ix.Exact key s.toTables)
    (hedited : TagsEdited jobid f reply s s')
    (hix : (match s.findJob jobid with
      | some (a, j) => if reply.status = 0 then g a j else .ok ix
      | none => .ok ix) = .ok ix')
    (hg : ∀ a j, ix.valuesOf a = keyed key j.tags → g a j = .ok ix' → ix'.Sound ∧
      ∀ b, ix'.valuesOf b = if b = a then keyed key (f j.tags) else ix.valuesOf b) :
    ix'.Exact key s'.toTables ∧ s'.recovery = s.recovery := by
  rcases hedited with ⟨hrefused, rfl⟩ | ⟨haccepted, a, j, hfound, hrec, hjobs⟩
  · have hsame : ix = ix' := by
      split at hix
      · rw [if_neg hrefused] at hix
        exact ok.inj hix
      · exact ok.inj hix
    exact ⟨hsame ▸ h, rfl⟩
  · have hj := (Table.find?_some hfound).1
    rw [hfound] at hix
    dsimp only at hix
    rw [if_pos haccepted] at hix
    obtain ⟨hs, hvalues⟩ := hg a j (h.at_job hj) hix
    exact ⟨h.edited hj hjobs hs hvalues, hrec⟩

end

/-! ### Runs -/

/-- What the daemon with its index keeps. -/
structure IndexGood (key : Str) (x : Indexed) : Prop where
  recovery : x.server.recovery = none
  exact : x.index.Exact key x.server.toTables

variable {x : Indexed} {key : Str} {cmd : Command} {reply : Reply} {s' : Server} {c : Client}
  {ix' : Index}

/-- Events other than the tag commands. -/
theorem IndexGood.event {env : Env} {e : Event}
    (h : IndexGood key x) (hno : e.setsTags = false) (hgood : indexKept key x (.event env e) = true)
    (hstep : handle env e x.server = .ok ((), s'))
    (hix : indexMoved key x.server s' x.index = .ok ix') : IndexGood key ⟨s', ix'⟩ := by
  have hfrom := (handle_path h.recovery hstep).invariant (I := KeyedFrom key x.server)
    (fun hc hl hm ↦ hc.move hno hgood hl hm) (.refl key x.server)
  exact ⟨handle_recovery h.recovery hstep, h.exact.moved hfrom hix⟩

theorem handle_client {env : Env} {s s' : Server}
    (h : runCommand env c cmd s = .ok (reply, s')) : handle env (.client c cmd) s = .ok ((), s') :=
  bind_of_ok h

theorem IndexGood.command {env : Env} (h : IndexGood key x)
    (hgood : indexKept key x (.event env (.client c cmd)) = true)
    (hrun : runCommand env c cmd x.server = .ok (reply, s'))
    (hix : indexCommand key cmd reply x.server s' x.index = .ok ix') : IndexGood key ⟨s', ix'⟩ := by
  cases cmd with
  | setTag jobid tag value =>
    obtain ⟨hexact, hrec⟩ := h.exact.tagged (runCommand_edits hrun fun _ ↦ commandTag_edits) hix
      fun a j hj hset ↦ indexSet_ok h.exact.sound hj hset
    exact ⟨hrec.trans h.recovery, hexact⟩
  | delTag jobid tag =>
    obtain ⟨hexact, hrec⟩ := h.exact.tagged (runCommand_edits hrun fun _ ↦ commandTag_edits) hix
      fun a j hj hunset ↦ ok.inj hunset ▸ indexUnset_ok tag h.exact.sound hj
    exact ⟨hrec.trans h.recovery, hexact⟩
  | _ => exact h.event rfl hgood (handle_client hrun) hix

/-- **A step keeps the index exact** under the condition. -/
theorem IndexGood.step {e : IndexEvent} {x' : Indexed} (h : IndexGood key x)
    (hgood : indexKept key x e = true) (hstep : indexStep key x e = .ok x') : IndexGood key x' := by
  cases e with
  | cleanupIndexTag =>
    obtain rfl := ok.inj hstep
    exact ⟨h.recovery, h.exact.sound.clean, h.exact.values⟩
  | load fileName text =>
    obtain ⟨j, hload, h₁⟩ := bind_eq_ok_iff.mp hstep
    obtain ⟨⟨rc, s'⟩, hadd, h₂⟩ := bind_eq_ok_iff.mp h₁
    dsimp only at h₂
    by_cases hrc : rc ≠ 0
    · rw [if_pos hrc] at h₂
      exact nomatch h₂
    rw [if_neg hrc] at h₂
    obtain ⟨ix', hix, hret⟩ := bind_eq_ok_iff.mp h₂
    obtain rfl := ok.inj hret
    obtain rfl := not_not.mp hrc
    have hone : (keyed key j.tags).length ≤ 1 := by
      simpa [indexKept, hload, Except.toOption] using hgood
    obtain ⟨hbad, -⟩ | ⟨-, -, f, hm, -⟩ := addJob_ok hadd
    · exact nomatch hbad
    refine ⟨hm.frame.recovery.trans h.recovery, h.exact.moved ⟨hm.frame.jobNext, ?_⟩ hix⟩
    refine hm.jobs_all (KeyedFrom.refl key x.server).jobs (fun _ _ _ _ hl ↦ nomatch hl) ?_
    rintro j₁ j₁' k hl
    obtain ⟨-, rfl, -⟩ := Label.addJob.inj hl
    exact .inr ⟨le_rfl, hone⟩
  | event env e =>
    cases e with
    | client c cmd =>
      obtain ⟨⟨reply, s'⟩, hrun, h₁⟩ := bind_eq_ok_iff.mp hstep
      obtain ⟨ix', hix, hret⟩ := bind_eq_ok_iff.mp h₁
      obtain rfl := ok.inj hret
      exact h.command hgood hrun hix
    | _ =>
      obtain ⟨⟨_, s'⟩, hrun, h₁⟩ := bind_eq_ok_iff.mp hstep
      obtain ⟨ix', hix, hret⟩ := bind_eq_ok_iff.mp h₁
      obtain rfl := ok.inj hret
      exact h.event rfl hgood hrun hix

/-! ### Searching -/

section

variable {env : Env} {key value : Str} {tags : List (Str × Option Str)}

theorem tagMatches_of_keyed_nil {pattern : Option Str} (h : keyed key tags = []) :
    tagMatches env key pattern tags = .ok false := by
  induction tags with
  | nil => rfl
  | cons t tags ih =>
    rw [keyed_cons] at h
    split at h
    · exact nomatch h
    · next hne => rw [tagMatches, if_neg hne, ih h]

/-- A text without a wildcard is compared with the one value. -/
theorem tagMatches_of_keyed_one (hplain : hasWildcard value = false)
    (h : keyed key tags = [some v]) : tagMatches env key (some value) tags = .ok (v == value) := by
  induction tags with
  | nil => exact nomatch h
  | cons t tags ih =>
    rw [keyed_cons] at h
    split at h
    · next hkey =>
      obtain ⟨hv, hrest⟩ := List.cons.inj h
      have hmatch : matchesPattern env (some value) t.2 = .ok (v == value) := by
        rw [hv, matchesPattern, hplain]
        rfl
      rw [tagMatches, if_pos hkey, hmatch, ok_bind, tagMatches_of_keyed_nil hrest]
      cases v == value <;> rfl
    · next hne => rw [tagMatches, if_neg hne, ih h]

variable {ts : List (Str × Option Str)} {f : JobFilter} {q : Option Addr} {skip : Option ℕ}
  {t : Tables}

/-- A filter that the job passes may be skipped. -/
theorem tagsMatch_skip {i n : ℕ}
    (h : ∀ t, n ≤ i → ts[i - n]? = some t → tagMatches env t.1 t.2 tags = .ok true) :
    tagsMatch env (some i) tags n ts = tagsMatch env none tags n ts := by
  induction ts generalizing n with
  | nil => rfl
  | cons t ts ih =>
    have hrest : tagsMatch env (some i) tags (n + 1) ts = tagsMatch env none tags (n + 1) ts := by
      refine ih fun t' hle ht' ↦ h t' (Nat.le_of_succ_le hle) ?_
      rw [show i - n = (i - (n + 1)) + 1 by omega, getElem?_cons_succ]
      exact ht'
    rw [tagsMatch, tagsMatch, if_neg (show (none : Option ℕ) ≠ some n from nofun), hrest]
    split
    · next hi =>
      obtain rfl := some.inj hi
      rw [h t le_rfl (by simp), ok_bind, if_pos rfl]
    · rfl

/-- All tag filters have been passed. -/
theorem tagsMatch_true {n : ℕ} (h : tagsMatch env none tags n ts = .ok true) :
    ∀ t ∈ ts, tagMatches env t.1 t.2 tags = .ok true := by
  induction ts generalizing n with
  | nil => exact fun t ht ↦ nomatch ht
  | cons t ts ih =>
    rw [tagsMatch, if_neg (show (none : Option ℕ) ≠ some n from nofun)] at h
    obtain ⟨matched, hmatch, h₁⟩ := bind_eq_ok_iff.mp h
    cases matched with
    | false => exact nomatch ok.inj h₁
    | true =>
      intro t' ht'
      rcases mem_cons.mp ht' with rfl | ht'
      · exact hmatch
      · exact ih h₁ t' ht'

theorem JobFilter.accepts_skip
    (h : tagsMatch env skip j.tags 0 (f.tags.getD []) = tagsMatch env none j.tags 0
      (f.tags.getD [])) :
    f.accepts env t q skip j = f.accepts env t q none j := by
  simp only [JobFilter.accepts, h]

/-- A job that passes all filters passes those on tags. -/
theorem JobFilter.accepts_tags (h : f.accepts env t q skip j = .ok true) :
    tagsMatch env skip j.tags 0 (f.tags.getD []) = .ok true := by
  have hfalse {p : Prop} [Decidable p] {x : Except Fault Bool}
      (h : (if p then pure false else x) = .ok true) : x = .ok true := by
    split at h
    · exact nomatch ok.inj h
    · exact h
  rw [JobFilter.accepts] at h
  obtain ⟨queue, -, h₁⟩ := bind_eq_ok_iff.mp (hfalse (hfalse h))
  obtain ⟨name, -, h₂⟩ := bind_eq_ok_iff.mp (hfalse (hfalse h₁))
  obtain ⟨matched, hmatch, h₃⟩ := bind_eq_ok_iff.mp (hfalse h₂)
  cases matched with
  | true => exact hmatch
  | false => exact nomatch ok.inj h₃

/-- What a filter that drives the search through the index asks for. -/
theorem JobFilter.bucket_some {index : TagIndex} {i : ℕ} {jobs : List Addr}
    (h : f.bucket (some key) index = .ok (some (i, jobs))) :
    ∃ value, (f.tags.getD [])[i]? = some (key, some value) ∧ hasWildcard value = false ∧
      index.lookup value = some jobs := by
  unfold JobFilter.bucket at h
  cases htags : f.tags with
  | none =>
    rw [htags] at h
    exact nomatch ok.inj h
  | some tags =>
    rw [htags] at h
    dsimp only at h
    split at h
    · exact nomatch ok.inj h
    · next n hidx =>
      split at h
      · next k value hat =>
        have h := ok.inj h
        cases hplain : hasWildcard value with
        | true =>
          rw [hplain, if_pos rfl] at h
          exact nomatch h
        | false =>
          rw [hplain, if_neg Bool.false_ne_true] at h
          obtain ⟨bucket, hlookup, heq⟩ := map_eq_some_iff.mp h
          obtain ⟨rfl, rfl⟩ := Prod.mk.inj heq
          have hkey : k = key := by
            obtain ⟨hlt, htrue, -⟩ := findIdx?_eq_some_iff_getElem.mp hidx
            rw [getElem?_eq_getElem hlt] at hat
            rw [some.inj hat] at htrue
            simpa using htrue
          exact ⟨value, hkey ▸ hat, hplain, hlookup⟩
      · exact nomatch h

end

/-! ### The index is transparent -/

/-- The same answer, with the jobs in any order. -/
def SameJobs : ErrCode ⊕ List Addr × ℕ → ErrCode ⊕ List Addr × ℕ → Prop
  | .inl code, .inl code' => code = code'
  | .inr (as, fields), .inr (as', fields') => fields = fields' ∧ ∀ a, a ∈ as ↔ a ∈ as'
  | _, _ => False

theorem SameJobs.refl (r : ErrCode ⊕ List Addr × ℕ) : SameJobs r r := by
  cases r with
  | inl code => rfl
  | inr r => exact ⟨rfl, fun _ ↦ Iff.rfl⟩

section Transparent

variable {key : Str} {env : Env} {c : Client} {f : JobFilter} {s : Server} {ix : Index}

/-- A job is in the bucket of the one value of its tag. -/
theorem Index.Exact.mem_bucket_iff (h : ix.Exact key s.toTables) {a : Addr} :
    a ∈ ix.bucket v ↔ ∃ j, s.jobTable.get? a = some j ∧ keyed key j.tags = [some v] := by
  have hvalues := h.values a
  rw [h.sound.mem, Tables.valuesAt, Index.valuesOf] at *
  cases hj : s.jobTable.get? a with
  | none =>
    rw [hj] at hvalues
    cases hkey : ix.keyOf a with
    | none => simp
    | some w =>
      rw [hkey] at hvalues
      exact nomatch hvalues
  | some j =>
    rw [hj] at hvalues
    simp only [map_some, getD_some] at hvalues
    simp only [Option.some.injEq, exists_eq_left']
    rw [← hvalues]
    cases ix.keyOf a <;> simp

variable {b : Option (ℕ × List Addr)}

/-- A search through the bucket finds what a scan finds. -/
theorem Index.Exact.search (h : ix.Exact key s.toTables) {as : List Addr}
    (hbucket : f.bucket (some key) ix.table = .ok b)
    (hscan : searchJobs env c f none [] s.config s.toTables = .ok (some as)) :
    ∃ as', searchJobs env c f (some key) ix.table s.config s.toTables = .ok (some as') ∧
      ∀ a, a ∈ as ↔ a ∈ as' := by
  cases b with
  | none =>
    refine ⟨as, ?_, fun _ ↦ Iff.rfl⟩
    rw [← hscan]
    simp only [searchJobs, hbucket]
    rfl
  | some r =>
    obtain ⟨i, jobs⟩ := r
    obtain ⟨value, hat, hplain, hlookup⟩ := JobFilter.bucket_some hbucket
    obtain ⟨all, hall, h₁⟩ := bind_eq_ok_iff.mp hscan
    obtain ⟨own, hown, h₂⟩ := bind_eq_ok_iff.mp h₁
    obtain ⟨q, hq, h₃⟩ := bind_eq_ok_iff.mp h₂
    cases q with
    | none => cases h₃
    | some q =>
      obtain ⟨_, hb, h₄⟩ := bind_eq_ok_iff.mp h₃
      have hscanned : f.bucket none [] = .ok none := rfl
      obtain rfl := ok.inj (hscanned.symm.trans hb)
      obtain ⟨found, hfound, h₅⟩ := bind_eq_ok_iff.mp h₄
      obtain rfl := some.inj (ok.inj h₅)
      obtain ⟨hruns, hmem⟩ := selectFrom_ok hfound
      have hjobs {a : Addr} : a ∈ jobs ↔
          ∃ j, s.jobTable.get? a = some j ∧ keyed key j.tags = [some value] := by
        rw [← h.mem_bucket_iff, Buckets.bucket, hlookup]
        rfl
      -- on the jobs of the bucket the two tests are the same
      have htest {j : Job} (hj : keyed key j.tags = [some value]) :
          f.accepts env s.toTables q (some i) j = f.accepts env s.toTables q none j := by
        refine JobFilter.accepts_skip (tagsMatch_skip fun t _ ht ↦ ?_)
        rw [Nat.sub_zero, hat] at ht
        obtain rfl := some.inj ht
        rw [tagMatches_of_keyed_one hplain hj, beq_self_eq_true]
      obtain ⟨found', hfound'⟩ : ∃ found', selectFrom s.toTables (fun j ↦ do
          return (← f.accepts env s.toTables q (some i) j) && (all || (own && j.uid == c.uid)))
            jobs =
          .ok found' := by
        refine selectFrom_runs fun a ha ↦ ?_
        obtain ⟨j, hj, hkeyed⟩ := hjobs.mp ha
        obtain ⟨j₁, b, hj₁, hb⟩ := hruns a (mem_addrs_iff.mpr ⟨j, hj⟩)
        obtain rfl := mem_unique hj hj₁
        refine ⟨j, b, hj, ?_⟩
        rw [htest hkeyed]
        exact hb
      refine ⟨found', ?_, fun a ↦ ?_⟩
      · simp only [searchJobs, hall, hown, hq, hbucket, ok_bind]
        exact congrArg (Except.map some) hfound'
      · rw [hmem a, (selectFrom_ok hfound').2 a]
        constructor
        · rintro ⟨-, j, hj, htrue⟩
          -- a job that passes the filters has the value of the bucket
          obtain ⟨passed, hpassed, hret⟩ := bind_eq_ok_iff.mp htrue
          obtain ⟨rfl, -⟩ := (Bool.and_eq_true _ _).mp (ok.inj hret)
          have hmatch := tagsMatch_true (JobFilter.accepts_tags hpassed) _ (mem_of_getElem? hat)
          have hkeyed : keyed key j.tags = [some value] := by
            have hvalues := h.at_job hj
            rw [Index.valuesOf] at hvalues
            cases hkey : ix.keyOf a with
            | none =>
              rw [hkey] at hvalues
              rw [tagMatches_of_keyed_nil hvalues.symm] at hmatch
              cases hmatch
            | some v =>
              rw [hkey] at hvalues
              rw [tagMatches_of_keyed_one hplain hvalues.symm] at hmatch
              rw [← hvalues, beq_iff_eq.mp (ok.inj hmatch)]
              rfl
          refine ⟨hjobs.mpr ⟨j, hj, hkeyed⟩, j, hj, ?_⟩
          rw [htest hkeyed]
          exact htrue
        · rintro ⟨ha, j, hj, htrue⟩
          obtain ⟨j₁, hj₁, hkeyed⟩ := hjobs.mp ha
          obtain rfl := mem_unique hj hj₁
          rw [htest hkeyed] at htrue
          exact ⟨mem_addrs_iff.mpr ⟨j, hj⟩, j, hj, htrue⟩

/-- The queue of a filter is looked up before the index. -/
theorem searchJobs_noqueue (h : searchJobs env c f none [] s.config s.toTables = .ok none)
    (indexTag : Option Str) (index : TagIndex) :
    searchJobs env c f indexTag index s.config s.toTables = .ok none := by
  obtain ⟨all, hall, h₁⟩ := bind_eq_ok_iff.mp h
  obtain ⟨own, hown, h₂⟩ := bind_eq_ok_iff.mp h₁
  obtain ⟨q, hq, h₃⟩ := bind_eq_ok_iff.mp h₂
  cases q with
  | none =>
    rw [searchJobs, hall, ok_bind, hown, ok_bind, hq]
    rfl
  | some q =>
    obtain ⟨_, -, h₄⟩ := bind_eq_ok_iff.mp h₃
    obtain ⟨_, -, h₅⟩ := bind_eq_ok_iff.mp h₄
    exact nomatch ok.inj h₅

/-- Queries are answered alike. -/
theorem Index.Exact.jobsFor_same (h : ix.Exact key s.toTables) {s' : Server}
    {r : ErrCode ⊕ List Addr × ℕ} (hbucket : f.bucket (some key) ix.table = .ok b)
    (hscan : jobsFor env c f none [] s = .ok (r, s')) :
    ∃ r', jobsFor env c f (some key) ix.table s = .ok (r', s') ∧ SameJobs r r' := by
  by_cases hid : f.jobid = 0
  · have hzero : ¬ f.jobid ≠ 0 := not_not.mpr hid
    rw [jobsFor, if_neg hzero] at hscan
    rw [jobsFor, if_neg hzero, read_bind]
    obtain ⟨_, rfl, h₁⟩ := read_bind_ok_iff.mp hscan
    obtain ⟨found, _, hl, h₂⟩ := bind_ok_iff.mp h₁
    obtain ⟨hfound, rfl⟩ := lift_ok_iff.mp hl
    cases found with
    | none =>
      obtain ⟨rfl, rfl⟩ := pure_ok_iff.mp h₂
      refine ⟨.inl .noqueue, ?_, rfl⟩
      rw [searchJobs_noqueue hfound]
      rfl
    | some as =>
      obtain ⟨rfl, rfl⟩ := pure_ok_iff.mp h₂
      obtain ⟨as', hsearch, hsame⟩ := h.search hbucket hfound
      refine ⟨.inr (as', f.returnFields), ?_, rfl, hsame⟩
      rw [hsearch]
      rfl
  · rw [jobsFor, if_pos hid] at hscan
    refine ⟨r, ?_, .refl r⟩
    rw [jobsFor, if_pos hid]
    exact hscan

end Transparent

/-- Each bucket has the jobs whose tag has its value, and a query through the index is answered like
one by a scan, if the filter on the indexed tag has a text. -/
structure IndexRight (key : Str) (x : Indexed) : Prop where
  buckets : ∀ v a, a ∈ x.index.bucket v ↔
    ∃ j, x.server.jobTable.get? a = some j ∧ (key, some v) ∈ j.tags
  queries : ∀ env c f r s' b, f.bucket (some key) x.index.table = .ok b →
    jobsFor env c f none [] x.server = .ok (r, s') →
    ∃ r', jobsFor env c f (some key) x.index.table x.server = .ok (r', s') ∧ SameJobs r r'

/-- The states that a daemon with an index reaches by steps that meet a condition. -/
def IndexRuns (key : Str) (good : Indexed → IndexEvent → Bool) (config : Config) (hosts : List Str)
    (x : Indexed) : Prop :=
  Run (fun x e x' ↦ indexStep key x e = .ok x') (fun x e ↦ good x e = true)
    { server := Server.initial config hosts } x

theorem mem_tags_iff {tags : List (Str × Option Str)} :
    (key, some v) ∈ tags ↔ some v ∈ keyed key tags := by
  simp only [keyed, List.mem_map, mem_filter, decide_eq_true_eq]
  constructor
  · exact fun h ↦ ⟨(key, some v), ⟨h, rfl⟩, rfl⟩
  · rintro ⟨t, ⟨ht, rfl⟩, hv⟩
    rw [← hv]
    exact ht

theorem IndexGood.right (h : IndexGood key x) : IndexRight key x := by
  refine ⟨fun v a ↦ ?_, fun env c f r s' b hbucket hscan ↦ h.exact.jobsFor_same hbucket hscan⟩
  rw [h.exact.mem_bucket_iff]
  refine exists_congr fun j ↦ and_congr_right fun hj ↦ ?_
  rw [mem_tags_iff, ← h.exact.at_job hj, Index.valuesOf]
  cases x.index.keyOf a <;> simp [eq_comm]

/-- **The tag index is transparent**, in every run whose steps meet the condition. -/
theorem indexRight_of_runs {key : Str} {config : Config} {hosts : List Str} {x : Indexed}
    (h : IndexRuns key (indexKept key) config hosts x) : IndexRight key x := by
  have hgood : IndexGood key x := by
    refine h.invariant (fun hx hkept hstep ↦ hx.step hkept hstep) ⟨rfl, .empty, fun a ↦ ?_⟩
    rfl
  exact hgood.right

/-! ### A job that the index has lost -/

namespace Sample

theorem exists_indexRuns (key : Str) (good : Indexed → IndexEvent → Bool) (es : List IndexEvent)
    (p : Indexed → Prop) (h : ∃ x ∈ Run.follow (Run.stepIf good (indexStep key)) es
      { server := Server.initial config hosts }, p x) :
    ∃ x, IndexRuns key good config hosts x ∧ p x :=
  Run.exists_of_stepIf good (indexStep key) es _ p h

/-- A job with the tag k=v. -/
def addTagged : Command :=
  .addJob { plainJob with tags := [("k".toList, some "v".toList)] }

/-- A queue and a job with the tag k=v. -/
def tagged : List IndexEvent :=
  [.event env (.client root addQueue), .event env (.client root addTagged)]

/-- A request for the jobs with the tag k=v. -/
def tagFilter : JobFilter := { tags := some [("k".toList, some "v".toList)] }

/-- The answer has these jobs, with all fields. -/
abbrev finds (x : Except Fault ((ErrCode ⊕ List Addr × ℕ) × Server)) (as : List Addr) : Prop :=
  ∃ r ∈ x.toOption, r.1 = .inr (as, 0)

theorem eq_of_finds {x : Except Fault ((ErrCode ⊕ List Addr × ℕ) × Server)} {as : List Addr}
    (h : finds x as) : ∃ s', x = .ok (.inr (as, 0), s') := by
  obtain ⟨⟨v, s'⟩, hr, rfl⟩ := h
  exact ⟨s', Except.toOption_eq_some_iff.mp hr⟩

end Sample

/-- A modify request gives the job the tag k=w. A query for k=v still returns the job, since it is
in the bucket of v, and a scan does not. -/
theorem not_indexRight_modify : ∃ x, IndexRuns "k".toList (fun _ _ ↦ true) config hosts x ∧
    ¬ IndexRight "k".toList x ∧
    (∃ s', jobsFor Sample.env root tagFilter none [] x.server = .ok (.inr ([], 0), s')) ∧
    ∃ s', jobsFor Sample.env root tagFilter (some "k".toList) x.index.table x.server =
      .ok (.inr ([0], 0), s') := by
  obtain ⟨x, hrun, ⟨b, hb⟩, hscan, hindex⟩ := exists_indexRuns "k".toList (fun _ _ ↦ true)
    (Sample.tagged ++ [.event Sample.env (.client root
      (.modJob { jobid := 1, tags := some [("k".toList, some "w".toList)] }))])
    (fun x ↦ (∃ b ∈ (tagFilter.bucket (some "k".toList) x.index.table).toOption, True) ∧
      finds (jobsFor Sample.env root tagFilter none [] x.server) [] ∧
      finds (jobsFor Sample.env root tagFilter (some "k".toList) x.index.table
        x.server) [0]) (by decide +kernel)
  obtain ⟨s', hscan⟩ := eq_of_finds hscan
  obtain ⟨s'', hindex⟩ := eq_of_finds hindex
  refine ⟨x, hrun, fun hright ↦ ?_, ⟨s', hscan⟩, s'', hindex⟩
  obtain ⟨r', hr', hsame⟩ :=
    hright.queries _ _ _ _ _ b (Except.toOption_eq_some_iff.mp hb.1) hscan
  obtain rfl := (Prod.mk.inj (ok.inj (hr'.symm.trans hindex))).1
  exact nomatch (hsame.2 0).mpr mem_cons_self

/-- A job whose tag is set to another value, and a modify request that gives it other tags
besides. -/
theorem indexRight_of_runs_set :
    ∃ x, IndexRuns "k".toList (indexKept "k".toList) config hosts x ∧
      x.index.bucket "v".toList = [] ∧ x.index.bucket "w".toList = [0] ∧
      IndexRight "k".toList x := by
  obtain ⟨x, hrun, hv, hw⟩ := exists_indexRuns "k".toList (indexKept "k".toList)
    (Sample.tagged ++ [.event Sample.env (.client root (.setTag 1 "k".toList (some "w".toList))),
      .event Sample.env (.client root (.modJob
        { jobid := 1, tags := some [("l".toList, none), ("k".toList, some "w".toList)] })),
      .cleanupIndexTag])
    (fun x ↦ x.index.bucket "v".toList = [] ∧ x.index.bucket "w".toList = [0]) (by decide +kernel)
  exact ⟨x, hrun, hv, hw, indexRight_of_runs hrun⟩

end Jers
