import Jers.State.SavedRevision

/-!
# The file of a queue

The texts of a queue are written as they are, while escapes are undone in every value that is read.
So a queue is read back if and only if its description and its host have no newline and no backslash
(`Queue.roundTrips_iff`).
-/

namespace Jers

open List Option

variable {q q' : Queue} {now : ℤ} {isDefault : Bool} {k : QueueKey} {t : Str} {d : QueueDraft}

/-- What the file is read as, if no text has a newline. -/
theorem stateLoadQueue_saved (now : ℤ) (isDefault : Bool) (hname : '\n' ∉ q.name)
    (hdesc : ∀ t, q.desc = some t → '\n' ∉ t) (hhost : '\n' ∉ q.host) :
    stateLoadQueue (queueFileName q.name) (stateSaveQueue now isDefault q) = .ok {
      obj := { revision := (strtoint64 (unescapeString (int64tostr q.obj.revision))).1 }
      name := q.name
      desc := q.desc.map unescapeString
      jobLimit := atoi (unescapeString (int64tostr q.jobLimit))
      state := 2
      priority := atoi (unescapeString (int64tostr q.priority))
      nice := if q.nice = unset32 then unset32 else atoi (unescapeString (int64tostr q.nice))
      isDefault := if isDefault then 1 else 0
      host := unescapeString q.host } := by
  have hcomment : (pieces ("# QUEUE ".toList ++ q.name)).foldl loadQueueLine {} = {} := by
    rw [pieces_of_notMem (by simpa using hname)]
    rfl
  have hdesc' : ((q.desc.map (wordLine "DESC")).toList.flatMap pieces).foldl loadQueueLine {} =
      { desc := q.desc.map unescapeString } := by
    cases hd : q.desc with
    | none => rfl
    | some t =>
      exact (congrArg (foldl loadQueueLine {}) (append_nil _)).trans
        (foldl_wordLine .desc (hdesc t hd) {})
  have hhost' := foldl_wordLine .host hhost
  simp only [QueueKey.name, QueueDraft.apply] at hhost'
  have hext : dropExtension (queueFileName q.name) = .ok q.name :=
    dropExtension_append (by decide : '.' ∉ "queue".toList) q.name
  rw [stateLoadQueue, stateSaveQueue, fileText, getlines_flatMap, foldl_queueLines, hext]
  dsimp only
  rw [hcomment, hdesc', hhost']
  rfl

/-! ### Texts that are cut -/

/-- The text under a key. -/
def QueueDraft.text (d : QueueDraft) : QueueKey → Option Str
  | .desc => d.desc
  | .host => d.host
  | _ => none

/-- A line leaves a text alone, or sets it to one that is shorter than the line. -/
theorem loadQueueLine_text (d : QueueDraft) (line : Str) (k : QueueKey) :
    (loadQueueLine d line).text k = d.text k ∨
      ∃ v, (loadQueueLine d line).text k = some v ∧ v.length ≤ line.length - 1 := by
  rw [loadQueueLine]
  cases hkv : loadKeyValue line with
  | none => exact .inl rfl
  | some kv =>
    obtain ⟨raw, hraw, hvalue⟩ := loadKeyValue_value hkv
    have hlen : kv.value.length ≤ line.length - 1 := by
      rw [hvalue, ← length_tail]
      exact (length_unescapeString_le raw).trans hraw.length_le
    dsimp only
    split
    · exact .inl rfl
    · next k' _ => cases k' <;> cases k <;> first | exact .inl rfl | exact .inr ⟨_, rfl, hlen⟩

/-- **A text with a newline is cut**: whatever its lines are read as, it is shorter. -/
theorem length_lt_of_newline (hnl : '\n' ∈ t) {v : Str} (hk : ∀ v, (d.apply v k).text k = some v)
    (h : ((pieces (wordLine k.name t)).foldl loadQueueLine d).text k = some v) :
    v.length < t.length := by
  obtain ⟨first, rest, rfl, hfirst⟩ := eq_append_cons_of_mem hnl
  have hpieces :
      pieces (wordLine k.name (first ++ '\n' :: rest)) = wordLine k.name first :: pieces rest := by
    have hname : '\n' ∉ k.name.toList := by cases k <;> decide
    rw [← pieces_newline (by simp [wordLine, hname, hfirst])]
    simp [wordLine]
  rw [hpieces, foldl_cons, loadQueueLine_wordLine] at h
  refine foldlRecOn (motive := fun d ↦ ∀ v, d.text k = some v →
    v.length < (first ++ '\n' :: rest).length) (pieces rest) loadQueueLine ?_ ?_ v h
  · intro v hv
    obtain rfl := some.inj ((hk _).symm.trans hv)
    have hle := length_unescapeString_le first
    rw [length_append, length_cons]
    omega
  · intro d hd line hline v hv
    rcases loadQueueLine_text d line k with hsame | ⟨v', hv', hlen⟩
    · exact hd v (hsame.symm.trans hv)
    · obtain rfl := some.inj (hv'.symm.trans hv)
      have hle : line.length ≤ rest.length := by
        rcases mem_pieces_append not_mem_nil (by rwa [append_nil] : line ∈ pieces (rest ++
          [])) with h | ⟨a, h, rfl⟩
        · exact h
        · rwa [append_nil]
      rw [length_append, length_cons]
      omega

/-! ### The round trip -/

/-- `unescapeString` looks behind the NUL that has replaced the newline: the line has no value, or
its value ends in a backslash of its own. -/
def overreads (line : Str) : Bool :=
  let rest := skipUntilWhitespace (skipWhitespace line)
  (loadKeyValue line).isSome && (rest.isEmpty || dangling rest.tail)

/-- **The file of the queue is read back**, and no line is read past its end. -/
def Queue.RoundTrips (now : ℤ) (isDefault : Bool) (q : Queue) : Prop :=
  (∃ q', stateLoadQueue (queueFileName q.name) (stateSaveQueue now isDefault q) = .ok q' ∧
    q'.name = q.name ∧ q'.desc = q.desc ∧ q'.host = q.host ∧ q'.jobLimit = q.jobLimit ∧
    q'.priority = q.priority ∧ q'.nice = q.nice ∧ q'.obj.revision = q.obj.revision ∧
    q'.isDefault = if isDefault then 1 else 0) ∧
  ∀ line ∈ getlines (stateSaveQueue now isDefault q), overreads line = false

theorem overreads_pieces (k : QueueKey) (h : '\n' ∉ t) :
    (∀ line ∈ pieces (wordLine k.name t), overreads line = false) ↔ dangling t = false := by
  rw [pieces_wordLine (by cases k <;> decide) h, forall_mem_singleton]
  cases k <;> exact Iff.rfl

/-- A text that is read back. -/
theorem notMem_of_readBack (hk : ∀ d v, (QueueDraft.apply d v k).text k = some v)
    (h : ((pieces (wordLine k.name t)).foldl loadQueueLine d).text k = some t)
    (hreads : ∀ line ∈ pieces (wordLine k.name t), overreads line = false) :
    '\n' ∉ t ∧ '\\' ∉ t := by
  have hnl : '\n' ∉ t := fun hnl ↦ lt_irrefl _ (length_lt_of_newline hnl (hk _) h)
  rw [foldl_wordLine k hnl, hk] at h
  refine ⟨hnl, fun hmem ↦ ?_⟩
  have hdrop := (unescapeString_eq_self_iff t).mp (some.inj h)
  have hdangling := (dangling_iff_of_notMem_dropLast hdrop).mpr hmem
  rw [(overreads_pieces k hnl).mp hreads] at hdangling
  exact nomatch hdangling

/-- **The file of a queue is read back** if and only if its texts have no newline and no
backslash. -/
theorem Queue.roundTrips_iff (hname : checkName q.name = true) (hlimit : IsInt32 q.jobLimit)
    (hpriority : IsInt32 q.priority) (hnice : IsInt32 q.nice) (hrevision : IsInt64 q.obj.revision) :
    q.RoundTrips now isDefault ↔ ∀ t ∈ q.desc.toList ++ [q.host], '\n' ∉ t ∧ '\\' ∉ t := by
  have hnl : '\n' ∉ q.name := fun hmem ↦ absurd (List.all_eq_true.mp hname _ hmem) (by decide)
  rw [RoundTrips, stateSaveQueue, fileText, getlines_flatMap, forall_mem_flatMap]
  constructor
  · rintro ⟨⟨q', hload, -, hdesc, hhost, -⟩, hreads⟩
    obtain ⟨-, hdesc', hhost', -⟩ := stateLoadQueue_ok hload
    rw [getlines_flatMap, foldl_queueLines] at hdesc' hhost'
    have hclean := notMem_of_readBack (k := .host) (fun _ _ ↦ rfl) (hhost ▸ hhost')
      (hreads _ (by simp [queueLines, QueueKey.name]))
    refine forall_mem_append.mpr ⟨fun t ht ↦ ?_, forall_mem_singleton.mpr hclean⟩
    have ht := mem_toList.mp ht
    have hhost₂ := foldl_wordLine .host hclean.1
    simp only [QueueKey.name, QueueDraft.apply] at hhost₂
    simp only [hhost₂, ht, map_some, toList_some, flatMap_singleton, hdesc] at hdesc'
    exact notMem_of_readBack (k := .desc) (fun _ _ ↦ rfl)
      hdesc' (hreads _ (by simp [queueLines, ht, QueueKey.name]))
  · intro h
    obtain ⟨⟨hdesc, hhost⟩, hdesc', hhost'⟩ : ((∀ t, q.desc = some t → '\n' ∉ t) ∧ '\n' ∉ q.host) ∧
        (∀ t, q.desc = some t → '\\' ∉ t) ∧ '\\' ∉ q.host := by
      simpa [or_imp, forall_and] using h
    have hplain {t : Str} (ht : '\\' ∉ t) : '\\' ∉ t.dropLast :=
      fun hmem ↦ ht (mem_of_mem_dropLast hmem)
    refine ⟨⟨_, stateLoadQueue_saved now isDefault hnl hdesc hhost, rfl, ?_,
      (unescapeString_eq_self_iff _).mpr (hplain hhost'),
      atoi_unescapeString_int64tostr hlimit, atoi_unescapeString_int64tostr hpriority, ?_,
      strtoint64_saved hrevision, rfl⟩, ?_⟩
    · cases hd : q.desc with
      | none => rfl
      | some t => exact congrArg some ((unescapeString_eq_self_iff t).mpr (hplain (hdesc' t hd)))
    · dsimp only
      split
      · next hunset => exact hunset.symm
      · exact atoi_unescapeString_int64tostr hnice
    · have hword (k : QueueKey) {t : Str} (ht : '\n' ∉ t) (hslash : '\\' ∉ t) :
          ∀ line ∈ pieces (wordLine k.name t), overreads line = false := by
        rw [overreads_pieces k ht, ← Bool.not_eq_true,
          dangling_iff_of_notMem_dropLast (hplain hslash)]
        exact hslash
      have hint (k : QueueKey) (n : ℤ) := hword k (int64tostr_no_newline n) fun hmem ↦
        (NumType.mem_print (w := .int64) hmem).2 rfl
      intro line hline
      simp only [queueLines, mem_append, mem_cons, not_mem_nil, or_false, mem_toList,
        map_eq_some_iff] at hline
      rcases hline with ((((rfl | rfl) | ⟨t, ht, rfl⟩) | rfl | rfl | rfl | rfl) | hline) | hline
      · rw [pieces_of_notMem (by simpa using hnl)]
        exact forall_mem_singleton.mpr rfl
      · rw [pieces_of_notMem (by simpa using int64tostr_no_newline now)]
        exact forall_mem_singleton.mpr rfl
      · exact hword .desc (hdesc t ht) (hdesc' t ht)
      · exact hint .joblimit _
      · exact hint .priority _
      · exact hword .host hhost hhost'
      · exact hint .revision _
      · split at hline
        · contradiction
        · exact mem_singleton.mp hline ▸ hint .nice _
      · split at hline
        · exact mem_singleton.mp hline ▸ hword .isDefault (by decide) (by decide)
        · contradiction

namespace Sample

/-- A queue with a description. -/
def described (desc : String) : Queue where
  name := "q".toList
  desc := some desc.toList
  jobLimit := 1
  state := 2
  priority := 100
  nice := unset32
  host := "localhost".toList

end Sample

/-- A description with a blank. -/
theorem Queue.roundTrips_described : (Sample.described "a b").RoundTrips 0 true :=
  (Queue.roundTrips_iff (by decide) (by decide) (by decide) (by decide) (by decide)).mpr (by decide)

/-- A backslash swallows the character behind it. -/
theorem Queue.not_roundTrips_backslash : ¬(Sample.described "a\\b").RoundTrips 0 true := by
  rintro ⟨⟨q', hload, -, hdesc, -⟩, -⟩
  obtain ⟨-, hdesc', -⟩ := stateLoadQueue_ok hload
  rw [hdesc] at hdesc'
  exact absurd hdesc' (by decide +kernel)

end Jers
