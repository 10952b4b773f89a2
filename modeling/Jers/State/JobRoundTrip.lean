import Jers.Lib.Exec
import Jers.State.JobFile
import Mathlib.Data.Finset.Max

/-!
# Which jobs survive their state file

A job is read back from its own state file exactly when it satisfies `Job.Kept`: it has no wrapper
and no failure reason, its nice value is set, it is not in state 0, and every environment entry
and every tag key, which the writer does not escape although the reader undoes escapes, is free of
newlines and escapes.

The file is compared with the job in two steps. When no raw text holds a newline, the lines of the
file are the lines that were written, and the loop is computed line by line
(`foldlM_jobLines`). When some raw text does, the lines behind its first newline are read as lines
of their own and may set any field; the longest such text is never recovered, because every line
that could set its slot is shorter (`not_recovered_of_newline`).
-/

namespace Jers

open List Option Except JobKey Function NumType

variable {s : Tables} {j : Job}

/-! ### What a written line does -/

variable {i jobid : ℕ} {d : JobDraft} {α β : Type} {line v p : Str} {c : Char} {a : ArrKey}
  {k : NumKey} {r : JobResource} {now : ℤ} {array : List (Option α)}

theorem isKeyChar_spec (h : isKeyChar c = true) :
    isBlank c = false ∧ c ≠ '#' ∧ c ≠ '[' ∧ c ≠ '\n' := by
  refine ⟨?_, ?_, ?_, ?_⟩
  · by_contra hb
    rw [Bool.not_eq_false, isBlank, Bool.or_eq_true, beq_iff_eq, beq_iff_eq] at hb
    rcases hb with rfl | rfl <;> exact absurd h (by decide)
  all_goals
    rintro rfl
    exact absurd h (by decide)

theorem JobKey.notMem_name {k : JobKey} : '[' ∉ k.name ∧ '\n' ∉ k.name :=
  ⟨fun h ↦ (isKeyChar_spec (isKeyChar_of_mem h)).2.2.1 rfl,
    fun h ↦ (isKeyChar_spec (isKeyChar_of_mem h)).2.2.2 rfl⟩

/-- What is written for a key is one line. -/
theorem notMem_keyLine {k : JobKey} {raw : Str} (hraw : '\n' ∉ raw) : '\n' ∉ keyLine k raw := by
  simp [keyLine, JobKey.notMem_name.2, hraw]

/-- The key of a line is read back, and its value without escapes. -/
theorem loadKeyValue_keyLine (k : JobKey) (raw : Str) :
    loadKeyValue (keyLine k raw) = some ⟨k.name, 0, unescapeString raw⟩ := by
  have hhead : ∀ t, k.name ≠ '#' :: t := fun t ht ↦
    (isKeyChar_spec (isKeyChar_of_mem (ht ▸ mem_cons_self))).2.1 rfl
  rw [keyLine, loadKeyValue_line (fun c hc ↦ (isKeyChar_spec (isKeyChar_of_mem hc)).1) hhead
    k.name_ne_nil, keyOf_of_notMem notMem_name.1, indexOf_of_notMem notMem_name.1]

variable {raws : List Str} {kv : KeyValue} {qname : Str} {name : Str} {index : ℤ}

theorem mem_indexedKey (h : c ∈ indexedKey name i) :
    c ∈ name ∨ c = '[' ∨ c = ']' ∨ c = '-' ∨ ∃ d < 10, c = Nat.digitChar d := by
  have hnum : c ∈ int64tostr i → _ := mem_int64tostr
  simp only [indexedKey, mem_append, mem_cons, not_mem_nil, or_false] at h
  tauto

theorem JobKey.mem_indexedKey_name {k : JobKey} (h : c ∈ indexedKey k.name i) :
    isBlank c = false ∧ c ≠ '\n' := by
  rcases mem_indexedKey h with h | rfl | rfl | rfl | ⟨d, hd, rfl⟩
  · have := isKeyChar_spec (isKeyChar_of_mem h)
    exact ⟨this.1, this.2.2.2⟩
  · decide
  · decide
  · decide
  · interval_cases d <;> decide

theorem notMem_itemLine {raw : Str} (hraw : '\n' ∉ raw) : '\n' ∉ itemLine a i raw := by
  have hname : '\n' ∉ indexedKey (item a).name i := fun hm ↦ (mem_indexedKey_name hm).2 rfl
  simp [itemLine, hname, hraw]

/-- The index of an array entry is read back too, if it fits an `int`. -/
theorem loadKeyValue_itemLine (a : ArrKey) (hi : i < 2 ^ 31) (raw : Str) :
    loadKeyValue (itemLine a i raw) = some ⟨(JobKey.item a).name, i, unescapeString raw⟩ := by
  have hne : indexedKey (item a).name i ≠ [] := by simp [indexedKey]
  have hhead : ∀ t, indexedKey (item a).name i ≠ '#' :: t := by
    intro t ht
    obtain ⟨c, u, hcu⟩ := exists_cons_of_ne_nil (item a).name_ne_nil
    rw [indexedKey, hcu, cons_append] at ht
    have hc : c ∈ (item a).name := hcu ▸ mem_cons_self
    exact (isKeyChar_spec (isKeyChar_of_mem hc)).2.1 (cons.inj ht).1
  rw [itemLine, loadKeyValue_line (fun c hc ↦ (mem_indexedKey_name hc).1) hhead hne,
    keyOf_indexedKey notMem_name.1, indexOf_indexedKey notMem_name.1 hi]

theorem loadLine_keyLine (d : JobDraft) (k : JobKey) (raw : Str) :
    loadLine s d (keyLine k raw) = applyKey s d k 0 (unescapeString raw) := by
  rw [loadLine, loadKeyValue_keyLine]
  simp only [ofName_name]

theorem loadLine_itemLine (d : JobDraft) (a : ArrKey) (hi : i < 2 ^ 31) (raw : Str) :
    loadLine s d (itemLine a i raw) = applyKey s d (.item a) i (unescapeString raw) := by
  rw [loadLine, loadKeyValue_itemLine a hi]
  simp only [ofName_name]

/-- Comments are passed over. -/
theorem loadLine_comment (d : JobDraft) (t : Str) : loadLine s d ('#' :: t) = .ok d := by
  rw [loadLine, loadKeyValue, skipWhitespace_cons_of_not_blank (by decide)]
  rfl

theorem NumType.unescapeString_print (w : NumType) (n : ℤ) :
    unescapeString (w.print n) = w.print n :=
  (unescapeString_eq_self_iff _).mpr fun h ↦ (mem_print (dropLast_subset _ h)).2 rfl

theorem loadLine_numLine (h : k.type.Fits (j.num k)) (d : JobDraft) :
    loadLine s d (numLine j k) = .ok { d with num := update d.num k (j.num k) } := by
  rw [numLine, loadLine_keyLine, unescapeString_print, applyKey, read_print h]

theorem foldlM_optNumLine (h : k.type.Fits (j.num k)) (hd : d.num k = 0) :
    (optNumLine j k).foldlM (loadLine s) d = .ok { d with num := update d.num k (j.num k) } := by
  rw [optNumLine]
  split
  · next hz =>
    rw [hz, ← hd, update_eq_self]
    rfl
  · rw [foldlM_cons, loadLine_numLine h, ok_bind, foldlM_nil]
    rfl

theorem foldlM_strLine {k : StrKey} (hd : d.str k = none) : (strLine j k).foldlM (loadLine s) d =
      .ok { d with str := update d.str k (j.str k) } := by
  rw [strLine]
  split
  · next h =>
    rw [h, ← hd, update_eq_self]
    rfl
  · next t h =>
    rw [foldlM_cons, loadLine_keyLine, unescapeString_escapeString, applyKey, ok_bind,
      foldlM_nil, h]
    rfl

/-! ### The arrays -/

theorem atoi_unescapeString_int64tostr {n : ℤ} (h : IsInt32 n) :
    atoi (unescapeString (int64tostr n)) = n := by
  have hprint := unescapeString_print .int32 n
  have hread := read_print (w := .int32) h
  rw [print] at hprint hread
  rw [hprint]
  exact hread

theorem assign_of_lt (h : i < array.length) (x : α) :
    assign array i x = .ok (array.set i (some x)) := by
  rw [assign, if_pos ⟨by omega, by omega⟩, Int.toNat_natCast]

theorem allocate_natCast (n : ℕ) :
    (allocate n : Except Fault (List (Option α))) = .ok (List.replicate n none) := by
  rw [allocate, if_neg (by omega), Int.toNat_natCast]

section

-- `p` stores the array in the draft, `text` is written for an element and `b` is read
variable {p : List (Option β) → JobDraft} {text : α → Str} {b : α → β} {xs : List α}
  (hitem : ∀ x ∈ xs, ∀ (array : List (Option β)) (i : ℕ),
    applyKey s (p array) (.item a) i (unescapeString (text x)) = (assign array i (b x)).map p)
  (hlen : xs.length < 2 ^ 31)

include hitem hlen

/-- The indexed lines of an array fill it from left to right. -/
theorem foldlM_itemLines :
    (itemLines a (xs.map text)).foldlM (loadLine s) (p (List.replicate xs.length none)) =
      .ok (p (xs.map fun x ↦ some (b x))) := by
  -- `done` are the elements read so far; the next index is their number
  suffices h : ∀ (rest : List α) (done : List β), (∀ x ∈ rest, x ∈ xs) →
      done.length + rest.length < 2 ^ 31 →
      ((rest.map text).mapIdx fun i ↦ itemLine a (done.length + i)).foldlM (loadLine s)
        (p (done.map some ++ replicate rest.length none)) =
      .ok (p (done.map some ++ rest.map fun x ↦ some (b x))) by
    simpa [itemLines] using h xs [] (fun _ h ↦ h) (by simpa using hlen)
  intro rest
  induction rest with
  | nil => intro done _ _; rfl
  | cons x rest ih =>
    intro done hmem hbound
    rw [length_cons] at hbound
    have hset : (done.map some ++ replicate (x :: rest).length none).set done.length
        (some (b x)) = (done ++ [b x]).map some ++ replicate rest.length none := by
      rw [length_cons, replicate_succ, set_append_right _ _ (by simp)]
      simp
    have hhead : loadLine s (p (done.map some ++ replicate (x :: rest).length none))
        (itemLine a done.length (text x)) =
          .ok (p ((done.map some ++ replicate (x :: rest).length none).set done.length
          (some (b x)))) := by
      rw [loadLine_itemLine _ _ (by omega), hitem x (hmem x mem_cons_self), assign_of_lt (by simp)]
      rfl
    have htail := ih (done ++ [b x]) (fun y hy ↦ hmem y (mem_cons_of_mem _ hy))
      (by simp only [length_append, length_singleton]; omega)
    rw [map_cons, mapIdx_cons, Nat.add_zero, foldlM_cons, hhead, ok_bind, hset]
    simp only [length_append, length_singleton, Nat.add_assoc, Nat.add_comm 1] at htail
    rw [htail]
    simp

/-- The line with the count and the indexed lines of an array. -/
theorem foldlM_countLine_itemLines
    (hcount : ∀ value, applyKey s d (.count a) 0 value = (allocate (atoi value)).map p) :
    (countLine a xs.length :: itemLines a (xs.map text)).foldlM (loadLine s) d =
      .ok (p (xs.map fun x ↦ some (b x))) := by
  have hfirst : loadLine s d (countLine a xs.length) = .ok (p (List.replicate xs.length none)) := by
    rw [countLine, loadLine_keyLine, hcount, atoi_unescapeString_int64tostr ⟨by omega, by omega⟩,
      allocate_natCast]
    rfl
  rw [foldlM_cons, hfirst, ok_bind, foldlM_itemLines hitem hlen]

end

/-- The arguments are read back into the array that their count has allocated. -/
theorem foldlM_argv (hlen : j.argv.length < 2 ^ 31) (d : JobDraft) :
    (countLine .argv j.argv.length :: itemLines .argv (j.argv.map escapeString)).foldlM
      (loadLine s) d = .ok { d with argv := j.argv.map some } := by
  refine foldlM_countLine_itemLines (p := fun l ↦ { d with argv := l }) (b := id)
    (fun x _ array i ↦ ?_) hlen fun _ ↦ rfl
  rw [unescapeString_escapeString]
  rfl

theorem foldlM_envs (hlen : j.envs.length < 2 ^ 31) (hd : d.envs = []) :
    (if j.envs = [] then [] else countLine .env j.envs.length :: itemLines .env j.envs).foldlM
      (loadLine s) d = .ok { d with envs := j.envs.map fun e ↦ some (unescapeString e) } := by
  split
  · next h => rw [h, map_nil, ← hd]; rfl
  · have hseg : (countLine .env j.envs.length :: itemLines .env (j.envs.map id)).foldlM
        (loadLine s) d = .ok { d with envs := j.envs.map fun e ↦ some (unescapeString e) } :=
      foldlM_countLine_itemLines (p := fun l ↦ { d with envs := l }) (fun _ _ _ _ ↦ rfl) hlen
        fun _ ↦ rfl
    rwa [List.map_id] at hseg

/-- A tag is read back as `splitTag` splits its text. -/
theorem foldlM_tags (hlen : j.tags.length < 2 ^ 31) (hd : d.tags = []) : (if j.tags = [] then []
      else countLine .tag j.tags.length :: itemLines .tag (j.tags.map tagText)).foldlM
        (loadLine s) d =
      .ok { d with tags := j.tags.map fun t ↦ some (splitTag (unescapeString (tagText t))) } := by
  split
  · next h => rw [h, map_nil, ← hd]; rfl
  · exact foldlM_countLine_itemLines (p := fun l ↦ { d with tags := l }) (fun _ _ _ _ ↦ rfl) hlen
      fun _ ↦ rfl

/-! ### Requirements -/

/-- A requirement whose resource is in the table under a valid name. -/
def JobResource.Linked (s : Tables) (r : JobResource) : Prop :=
  IsInt32 r.needed ∧ ∃ res, s.resTable.get? r.res = some res ∧
    s.findResource res.name = some (r.res, res) ∧ checkName res.name = true

theorem notMem_of_checkName (h : checkName name = true) :
    ':' ∉ name ∧ '\n' ∉ name ∧ '\\' ∉ name := by
  rw [checkName, List.all_eq_true] at h
  exact ⟨fun hc ↦ absurd (h _ hc) (by decide), fun hc ↦ absurd (h _ hc) (by decide),
    fun hc ↦ absurd (h _ hc) (by decide)⟩

/-- What is written for a requirement. -/
def JobResource.text (s : Tables) (r : JobResource) : Str :=
  match s.resTable.get? r.res with
  | none => []
  | some res => res.name ++ ':' :: int64tostr r.needed

theorem JobResource.Linked.resText_eq (h : r.Linked s) : resText s r = .ok (r.text s) := by
  obtain ⟨-, res, hget, -⟩ := h
  rw [resText, text, hget]

theorem JobResource.Linked.mapM_resText {l : List JobResource} (h : ∀ r ∈ l, r.Linked s) :
    l.mapM (resText s) = .ok (l.map (JobResource.text s)) := by
  induction l with
  | nil => rfl
  | cons r l ih =>
    rw [mapM_cons, (h r mem_cons_self).resText_eq, ih fun r' hr' ↦ h r' (mem_cons_of_mem _ hr')]
    rfl

theorem JobResource.Linked.mem_text (h : r.Linked s) (hc : c ∈ r.text s) : c ≠ '\n' ∧ c ≠ '\\' := by
  obtain ⟨-, res, hget, -, hname⟩ := h
  obtain ⟨-, hnl, hbs⟩ := notMem_of_checkName hname
  rw [text, hget] at hc
  rcases mem_append.mp hc with hc | hc
  · exact ⟨fun he ↦ hnl (he ▸ hc), fun he ↦ hbs (he ▸ hc)⟩
  · rcases mem_cons.mp hc with rfl | hc
    · decide
    · exact mem_print (w := .int32) hc

/-- **Requirements are read back**, by the name of their resource. -/
theorem JobResource.Linked.resourceStringToResource_text (h : r.Linked s) :
    resourceStringToResource s (unescapeString (r.text s)) = some r := by
  have hplain : unescapeString (r.text s) = r.text s :=
    (unescapeString_eq_self_iff _).mpr fun hm ↦ (h.mem_text (dropLast_subset _ hm)).2 rfl
  obtain ⟨hint, res, hget, hfind, hname⟩ := h
  have hcolon : ∀ c ∈ res.name, (c != ':') = true := fun c hc ↦
    bne_iff_ne.mpr fun he ↦ (notMem_of_checkName hname).1 (he ▸ hc)
  have hneeded : atoi (int64tostr r.needed) = r.needed :=
    read_print (w := .int32) hint
  have htake : (res.name ++ ':' :: int64tostr r.needed).takeWhile (· != ':') = res.name := by
    rw [takeWhile_append_of_pos hcolon, takeWhile_cons_of_neg (by decide), append_nil]
  have hdrop : (res.name ++ ':' :: int64tostr r.needed).dropWhile (· != ':') =
      ':' :: int64tostr r.needed := by
    rw [dropWhile_append_of_pos hcolon, dropWhile_cons_of_neg (by decide)]
  rw [hplain, text, hget, resourceStringToResource]
  simp only [htake, hdrop, hfind, hneeded, map_some]

/-- The resources are read back by their names. -/
theorem foldlM_res (hcount : j.resCount = j.reqResources.length)
    (hlen : j.reqResources.length < 2 ^ 31) (hlinked : ∀ r ∈ j.reqResources, r.Linked s)
    (hd : d.res = []) :
    (if j.resCount = 0 then []
      else countLine .res j.resCount ::
        itemLines .res (j.reqResources.map (JobResource.text s))).foldlM (loadLine s) d =
      .ok { d with res := j.reqResources.map some } := by
  rw [hcount]
  split
  · next h =>
    have hnil : j.reqResources = [] := length_eq_zero_iff.mp (by omega)
    rw [hnil, map_nil, ← hd]
    rfl
  · refine foldlM_countLine_itemLines (p := fun l ↦ { d with res := l }) (b := id)
      (fun r hr array i ↦ ?_) hlen fun _ ↦ rfl
    rw [applyKey, (hlinked r hr).resourceStringToResource_text]
    rfl

/-! ### The whole file -/

/-- A job whose values fit their C types and whose queue and resources are in the tables. -/
structure Job.WellFormed (s : Tables) (j : Job) : Prop where
  jobid : j.jobid < 2 ^ 32
  num : ∀ k : NumKey, k.type.Fits (j.num k)
  argv : j.argv.length < 2 ^ 31
  envs : j.envs.length < 2 ^ 31
  tags : j.tags.length < 2 ^ 31
  res : j.reqResources.length < 2 ^ 31
  resCount : j.resCount = j.reqResources.length
  queue : ∃ q, s.queueTable.get? j.queue = some q ∧ s.findQueue q.name = some (j.queue, q)
  linked : ∀ r ∈ j.reqResources, r.Linked s

/-- The numbers that come back: `nice` has no line when it is unset, and the usage none when the
job has not finished. -/
def Job.numBack (j : Job) : NumKey → ℤ
  | .nice => if j.nice = unset32 then 0 else j.nice
  | .usage k => if j.finishTime = 0 then 0 else j.usage k
  | k => j.num k

/-- The draft that reading the written lines leaves. -/
def Job.draftBack (j : Job) : JobDraft where
  num := j.numBack
  str := j.str
  queue := some j.queue
  argv := j.argv.map some
  envs := j.envs.map fun e ↦ some (unescapeString e)
  tags := j.tags.map fun t ↦ some (splitTag (unescapeString (tagText t)))
  res := j.reqResources.map some

theorem foldlM_numLines (h : ∀ k : NumKey, k.type.Fits (j.num k)) (ks : List NumKey)
    (d : JobDraft) :
    (ks.map (numLine j)).foldlM (loadLine s) d =
      .ok { d with num := fun k ↦ if k ∈ ks then j.num k else d.num k } := by
  induction ks generalizing d with
  | nil => simp only [not_mem_nil, if_false]; rfl
  | cons k ks ih =>
    rw [map_cons, foldlM_cons, loadLine_numLine (h k), ok_bind, ih]
    have hnum : (fun k' ↦ if k' ∈ ks then j.num k' else update d.num k (j.num k) k') =
        fun k' ↦ if k' ∈ k :: ks then j.num k' else d.num k' := by
      funext k'
      by_cases hk : k' = k
      · subst hk
        simp
      · simp [hk]
    rw [hnum]

theorem foldlM_usage (h : ∀ k : NumKey, k.type.Fits (j.num k)) (hd : ∀ u, d.num (.usage u) = 0) :
    (if j.finishTime = 0 then [] else UsageKey.all.map fun k ↦ numLine j (.usage k)).foldlM
      (loadLine s) d = .ok { d with num := fun k ↦ match k with
        | .usage u => if j.finishTime = 0 then 0 else j.usage u
        | k => d.num k } := by
  split
  · refine congrArg ok (JobDraft.ext ?_ rfl rfl rfl rfl rfl rfl)
    funext k
    cases k with
    | usage u => exact hd u
    | _ => rfl
  · have hmap : (UsageKey.all.map fun k ↦ numLine j (.usage k)) =
        (UsageKey.all.map NumKey.usage).map (numLine j) := by
      rw [List.map_map]
      rfl
    rw [hmap, foldlM_numLines h]
    refine congrArg ok (JobDraft.ext ?_ rfl rfl rfl rfl rfl rfl)
    funext k
    cases k with
    | usage u => exact if_pos (mem_map_of_mem u.mem_all)
    | _ => simp

theorem foldlM_nice (h : ∀ k : NumKey, k.type.Fits (j.num k)) (hd : d.num .nice = 0) :
    (if j.nice = unset32 then [] else [numLine j .nice]).foldlM (loadLine s) d = .ok
      { d with num := update d.num .nice (if j.nice = unset32 then 0 else j.nice) } := by
  split
  · rw [← hd, update_eq_self]
    rfl
  · rw [foldlM_cons, loadLine_numLine (h .nice), ok_bind, foldlM_nil]
    rfl

/-- **The loop over the written lines**, when each of them is read as one line. -/
theorem foldlM_jobLines (hj : j.WellFormed s) (now : ℤ) {q : Queue}
    (hq : s.findQueue q.name = some (j.queue, q)) :
    (jobLines now j q.name (j.reqResources.map (JobResource.text s))).foldlM (loadLine s) {} =
      .ok j.draftBack := by
  have hopt : ∀ {k : NumKey} {d : JobDraft}, d.num k = 0 → (optNumLine j k).foldlM (loadLine s) d =
        .ok { d with num := update d.num k (j.num k) } :=
    fun {k} _ hd ↦ foldlM_optNumLine (hj.num k) hd
  have hnum : ∀ (k : NumKey) (d : JobDraft), loadLine s d (numLine j k) = .ok
      { d with num := update d.num k (j.num k) } := fun k d ↦ loadLine_numLine (hj.num k) d
  have hqueue : ∀ d : JobDraft, loadLine s d (keyLine .queuename (escapeString q.name)) =
      .ok { d with queue := some j.queue } := by
    intro d
    rw [loadLine_keyLine, unescapeString_escapeString, applyKey, hq]
  have hcomment : ∀ (d : JobDraft) (w t : Str), w.head? = some '#' →
      loadLine s d (w ++ t) = .ok d := by
    intro d w t hw
    cases w with
    | nil => simp at hw
    | cons c w =>
      obtain rfl : c = '#' := some.inj hw
      exact loadLine_comment d (w ++ t)
  have hone : ∀ (d d' : JobDraft) (line : Str), loadLine s d line = .ok d' →
      [line].foldlM (loadLine s) d = .ok d' := by
    intro d d' line h
    rw [foldlM_cons, h, ok_bind]
    rfl
  have hseg := fun {l : List Str} {ls : List (List Str)} {d d' e : JobDraft}
      (h : l.foldlM (loadLine s) d = .ok d') (h' : ls.flatten.foldlM (loadLine s) d' = .ok e) ↦
    (foldlM_flatten_cons_of_ok h ls).trans h'
  rw [jobLines]
  iterate 2 refine hseg (hone _ _ _ (hcomment _ _ _ (by decide))) ?_
  refine hseg (hone _ _ _ (hnum _ _)) ?_
  refine hseg (foldlM_strLine rfl) ?_
  refine hseg (hone _ _ _ (hqueue _)) ?_
  iterate 2 refine hseg (hone _ _ _ (hnum _ _)) ?_
  refine hseg (foldlM_argv hj.argv _) ?_
  iterate 5 refine hseg (foldlM_strLine rfl) ?_
  refine hseg (foldlM_envs hj.envs rfl) ?_
  refine hseg (foldlM_tags hj.tags rfl) ?_
  refine hseg (foldlM_res hj.resCount hj.res hj.linked rfl) ?_
  refine hseg (hopt rfl) ?_
  refine hseg (foldlM_nice hj.num rfl) ?_
  iterate 8 refine hseg (hopt rfl) ?_
  refine hseg (foldlM_usage hj.num fun _ ↦ rfl) ?_
  refine congrArg ok (JobDraft.ext (funext fun k ↦ ?_) (funext fun k ↦ ?_) rfl rfl rfl rfl rfl)
  · cases k <;> rfl
  · cases k <;> rfl

/-! ### The lines of a file -/

/-- The texts that are written as they are, so that a newline in them starts a new line. -/
inductive RawItem
  | env (e : Str)
  | tag (t : Str × Option Str)
  deriving DecidableEq

variable {x : RawItem}

namespace RawItem

def kind : RawItem → ArrKey
  | env _ => .env
  | tag _ => .tag

/-- The part of the text that is not escaped. -/
def pre : RawItem → Str
  | env e => e
  | tag t => t.1

/-- The rest of the text: nothing, or the tab and the escaped value. -/
def post : RawItem → Str
  | env _ => []
  | tag t => '\t' :: escapeString (t.2.getD [])

def text (x : RawItem) : Str := x.pre ++ x.post

/-- The number of characters of what has to be recovered. -/
def size : RawItem → ℕ
  | env e => e.length
  | tag t => t.1.length + 1 + (t.2.getD []).length

/-- The value on a line stands for the item. -/
def Decodes : RawItem → Str → Prop
  | env e, v => v = e
  | tag t, v => splitTag v = t

/-- The item stands at an index of the job. -/
def At (j : Job) (i : ℕ) : RawItem → Prop
  | env e => j.envs[i]? = some e
  | tag t => j.tags[i]? = some t

theorem notMem_post (x : RawItem) : '\n' ∉ x.post := by
  cases x with
  | env e => exact not_mem_nil
  | tag t =>
    intro h
    rcases mem_cons.mp h with h | h
    · exact absurd h (by decide)
    · exact (mem_escapeString h).1 rfl

/-- An array has one entry at an index. -/
theorem At.unique {y : RawItem} (hx : x.At j i) (hy : y.At j i) (h : x.kind = y.kind) : x = y := by
  cases x <;> cases y
  · exact congrArg env (mem_unique hx hy)
  · exact absurd h (by simp [kind])
  · exact absurd h (by simp [kind])
  · exact congrArg tag (mem_unique hx hy)

end RawItem

/-- What kinds of lines a job file has. -/
inductive WrittenLine (j : Job) : Str → Prop
  | comment {t : Str} : '\n' ∉ t → WrittenLine j ('#' :: t)
  | key {k : JobKey} {raw : Str} : (∀ a, k ≠ .item a) → '\n' ∉ raw → WrittenLine j (keyLine k raw)
  | plain {a : ArrKey} {i : ℕ} {raw : Str} : a ≠ .env → a ≠ .tag → i < 2 ^ 31 → '\n' ∉ raw →
      WrittenLine j (itemLine a i raw)
  | raw {x : RawItem} {i : ℕ} : x.At j i → i < 2 ^ 31 → WrittenLine j (itemLine x.kind i x.text)

theorem mem_itemLines (h : line ∈ itemLines a raws) :
    ∃ i raw, raws[i]? = some raw ∧ line = itemLine a i raw := by
  obtain ⟨i, hi, rfl⟩ := mem_mapIdx.mp h
  exact ⟨i, raws[i], getElem?_eq_getElem hi, rfl⟩

/-- What is written for the elements of an array. -/
def Job.itemTexts (j : Job) (res : List Str) : ArrKey → List Str
  | .argv => j.argv.map escapeString
  | .env => j.envs
  | .tag => j.tags.map tagText
  | .res => res

/-- What kinds of lines come after the one of the revision. -/
inductive BodyLine (j : Job) (qname : Str) (res : List Str) : Str → Prop
  | num {k : NumKey} : k ≠ .revision → BodyLine j qname res (numLine j k)
  | str (k : StrKey) (t : Str) : BodyLine j qname res (keyLine (.str k) (escapeString t))
  | queuename : BodyLine j qname res (keyLine .queuename (escapeString qname))
  | count (a : ArrKey) (n : ℤ) : BodyLine j qname res (countLine a n)
  | item {a : ArrKey} {line : Str} :
      line ∈ itemLines a (j.itemTexts res a) → BodyLine j qname res line

theorem jobLines_split (now : ℤ) (j : Job) (qname : Str) (res : List Str) :
    ∃ rest, jobLines now j qname res = ["# JOB ".toList ++ int64tostr j.jobid,
      "# SAVETIME ".toList ++ int64tostr now] ++ numLine j .revision :: rest ∧ ∀ line ∈ rest,
      BodyLine j qname res line := by
  have hone {line : Str} (h : BodyLine j qname res line) : ∀ l ∈ [line], BodyLine j qname res l :=
    forall_mem_singleton.mpr h
  have hif {p : Prop} [Decidable p] {seg : List Str} (h : ∀ l ∈ seg, BodyLine j qname res l) :
      ∀ l ∈ if p then [] else seg, BodyLine j qname res l := by
    split
    · exact forall_mem_nil _
    · exact h
  have hopt {k : NumKey} (hk : k ≠ .revision) : ∀ l ∈ optNumLine j k, BodyLine j qname res l :=
    hif (hone (.num hk))
  have hstr (k : StrKey) : ∀ l ∈ strLine j k, BodyLine j qname res l := by
    rw [strLine]
    split
    · exact forall_mem_nil _
    · exact hone (.str k _)
  have harray (a : ArrKey) (n : ℤ) : ∀ l ∈ countLine a n :: itemLines a (j.itemTexts res a),
    BodyLine j qname res l :=
    forall_mem_cons.mpr ⟨.count a n, fun _ ↦ .item⟩
  have husage : ∀ l ∈ UsageKey.all.map fun k ↦ numLine j (.usage k), BodyLine j qname res l :=
    forall_mem_map.mpr fun k _ ↦ .num (by simp)
  rw [jobLines, flatten_cons, flatten_cons, flatten_cons, cons_append, nil_append, cons_append,
    nil_append, cons_append, nil_append]
  refine ⟨_, rfl, ?_⟩
  simp only [flatten_cons, forall_mem_append]
  exact ⟨hstr _, hone .queuename, hone (.num (by simp)), hone (.num (by simp)), harray .argv _,
    hstr _, hstr _, hstr _, hstr _, hstr _, hif (harray .env _), hif (harray .tag _),
    hif (harray .res _), hopt (by simp), hif (hone (.num (by simp))), hopt (by simp),
    hopt (by simp), hopt (by simp), hopt (by simp), hopt (by simp),
    hopt (by simp), hopt (by simp), hopt (by simp), hif husage, forall_mem_nil _⟩

theorem WrittenLine.num (k : NumKey) : WrittenLine j (numLine j k) :=
  key (fun _ ↦ nofun) fun h ↦ (mem_print h).1 rfl

theorem WrittenLine.of_mem_itemLines (ha : a ≠ .env ∧ a ≠ .tag)
    (hlen : raws.length < 2 ^ 31) (hraws : ∀ raw ∈ raws, '\n' ∉ raw) (h : line ∈ itemLines a raws) :
    WrittenLine j line := by
  obtain ⟨i, raw, hraw, rfl⟩ := mem_itemLines h
  obtain ⟨hi, rfl⟩ := List.getElem?_eq_some_iff.mp hraw
  exact plain ha.1 ha.2 (hi.trans hlen) (hraws _ (getElem_mem hi))

theorem WrittenLine.of_mem_jobLines (hj : j.WellFormed s)
    (h : line ∈ jobLines now j qname (j.reqResources.map (JobResource.text s))) :
    WrittenLine j line := by
  have hcomment : ∀ (w : Str) (n : ℤ), '\n' ∉ w → WrittenLine j ('#' :: w ++ int64tostr n) := by
    refine fun w n hw ↦ comment fun hmem ↦ ?_
    rcases mem_append.mp hmem with hmem | hmem
    · exact hw hmem
    · exact (mem_print (w := .int32) hmem).1 rfl
  have hescaped (t : Str) : '\n' ∉ escapeString t := fun hm ↦ (mem_escapeString hm).1 rfl
  obtain ⟨rest, hlines, hrest⟩ :=
    jobLines_split now j qname (j.reqResources.map (JobResource.text s))
  rw [hlines, mem_append, mem_cons, mem_singleton, mem_cons] at h
  rcases h with (rfl | rfl) | rfl | h
  · exact hcomment " JOB ".toList _ (by decide)
  · exact hcomment " SAVETIME ".toList _ (by decide)
  · exact num _
  cases hrest line h with
  | num => exact num _
  | str k t => exact key (by simp) (hescaped t)
  | queuename => exact key (by simp) (hescaped qname)
  | count a n => exact key (by simp) fun h ↦ (mem_print (w := .int32) h).1 rfl
  | @item a _ hline =>
    cases a with
    | argv =>
      exact of_mem_itemLines (by decide) (by simpa [Job.itemTexts] using hj.argv)
        (forall_mem_map.mpr fun t _ ↦ hescaped t) hline
    | env =>
      obtain ⟨i, e, he, rfl⟩ := mem_itemLines hline
      have hi := (List.getElem?_eq_some_iff.mp he).1
      have hraw := raw (x := .env e) (show j.envs[i]? = some e from he) (hi.trans hj.envs)
      rwa [RawItem.text, RawItem.post, append_nil] at hraw
    | tag =>
      obtain ⟨i, text, htext, rfl⟩ := mem_itemLines hline
      rw [Job.itemTexts, getElem?_map, map_eq_some_iff] at htext
      obtain ⟨t, ht, rfl⟩ := htext
      have hi := (List.getElem?_eq_some_iff.mp ht).1
      exact raw (x := .tag t) (show j.tags[i]? = some t from ht) (hi.trans hj.tags)
    | res =>
      exact of_mem_itemLines (by decide) (by simpa [Job.itemTexts] using hj.res)
        (forall_mem_map.mpr fun r hr hm ↦ ((hj.linked r hr).mem_text hm).1 rfl) hline

/-! ### Newlines in raw texts -/

/-- A tag is split at its first tab. -/
theorem splitTag_eq_some_iff {k w : Str} :
    splitTag v = (k, some w) ↔ v = k ++ '\t' :: w ∧ '\t' ∉ k := by
  rw [splitTag]
  constructor
  · intro h
    split at h
    · exact absurd (Prod.mk.inj h).2 (by simp)
    · next c rest hdrop =>
      obtain ⟨hk, hw⟩ := Prod.mk.inj h
      have hc : c = '\t' := by
        have := head?_dropWhile_not (· != '\t') v
        rw [hdrop] at this
        simpa using this
      subst hc
      rw [← hk, ← some.inj hw, ← hdrop, takeWhile_append_dropWhile]
      refine ⟨rfl, fun hm ↦ ?_⟩
      simpa using mem_takeWhile_imp hm
  · rintro ⟨rfl, hk⟩
    have hall : ∀ c ∈ k, (c != '\t') = true := fun c hc ↦ bne_iff_ne.mpr fun he ↦ hk (he ▸ hc)
    rw [dropWhile_append_of_pos hall, takeWhile_append_of_pos hall,
      dropWhile_cons_of_neg (by decide), takeWhile_cons_of_neg (by decide),
      append_nil]

theorem splitTag_eq_none_iff {k : Str} : splitTag v = (k, none) ↔ v = k ∧ '\t' ∉ k := by
  rw [splitTag]
  constructor
  · intro h
    split at h
    · next hdrop =>
      rw [← (Prod.mk.inj h).1]
      refine ⟨rfl, fun hm ↦ ?_⟩
      simpa using dropWhile_eq_nil_iff.mp hdrop _ hm
    · exact absurd (Prod.mk.inj h).2 (by simp)
  · rintro ⟨rfl, hk⟩
    have hall : ∀ c ∈ v, (c != '\t') = true := fun c hc ↦ bne_iff_ne.mpr fun he ↦ hk (he ▸ hc)
    rw [dropWhile_eq_nil_iff.mpr hall]

/-- A value that stands for an item is not shorter than its raw part, and shorter than the whole
item by at most the tab. -/
theorem RawItem.Decodes.length (h : x.Decodes v) :
    x.pre.length ≤ v.length ∧ x.size ≤ v.length + 1 := by
  rcases x with e | ⟨k, w | w⟩
  · rw [show v = e from h]
    exact ⟨Nat.le_refl _, Nat.le_succ _⟩
  · rw [(splitTag_eq_none_iff.mp h).1]
    simp [pre, size]
  · rw [(splitTag_eq_some_iff.mp h).1]
    simp only [pre, size, getD_some, length_append, length_cons]
    omega

theorem loadKeyValue_nil : loadKeyValue [] = none := rfl

/-- **Lines behind a newline are short.** The value on a line that starts behind a newline of a raw
text has at least two characters less than the item. -/
theorem RawItem.length_value_of_mem_pieces {first rest : Str}
    (hpre : x.pre = first ++ '\n' :: rest) (hp : p ∈ pieces (rest ++ x.post))
    (hkv : loadKeyValue p = some kv) : kv.value.length + 2 ≤ x.size := by
  obtain ⟨q, hq, hvalue⟩ := loadKeyValue_value hkv
  have hlen := congrArg length hpre
  rw [length_append, length_cons] at hlen
  have hshort := length_unescapeString_le q
  have hqlen := hq.length_le
  rw [length_tail] at hqlen
  have hne : 0 < p.length := length_pos_of_ne_nil fun hnil ↦ by
    rw [hnil, loadKeyValue_nil] at hkv
    simp at hkv
  rw [hvalue]
  rcases mem_pieces_append x.notMem_post hp with hp | ⟨a, ha, rfl⟩
  · cases x <;> simp only [size, pre] at hlen ⊢ <;> omega
  · -- the last line, which runs into the rest of the text
    cases x with
    | env e =>
      simp only [post, append_nil, pre, size] at *
      omega
    | tag t =>
      simp only [post, pre, size] at *
      cases a with
      | nil =>
        have := length_unescapeString_of_suffix_escapeString hq
        omega
      | cons c a =>
        have := length_unescapeString_of_suffix_tab hq
        rw [length_cons] at ha
        omega

/-- The draft has the item at an index. -/
def RawItem.Recovered (i : ℕ) (d : JobDraft) : RawItem → Prop
  | env e => d.envs[i]? = some (some e)
  | tag t => d.tags[i]? = some (some t)

theorem assign_getElem? {array' : List (Option α)} {x y : α}
    (h : assign array index x = .ok array') (hy : array'[i]? = some (some y)) :
    (index = i ∧ x = y) ∨ array[i]? = some (some y) := by
  rw [assign] at h
  split at h
  · next hidx =>
    rw [← ok.inj h, getElem?_set] at hy
    split at hy
    · next hi =>
      split at hy
      · exact Or.inl ⟨by omega, some.inj (some.inj hy)⟩
      · simp at hy
    · exact Or.inr hy
  · simp at h

theorem allocate_getElem? {count : ℤ} {y : α} (h : allocate count = .ok array) :
    array[i]? ≠ some (some y) := by
  rw [allocate] at h
  split at h
  · simp at h
  · rw [← ok.inj h, getElem?_replicate]
    split <;> simp

/-- An item that a line recovers was there before, or the line holds a value that stands for it. -/
theorem RawItem.Recovered.of_applyKey {d' : JobDraft} {key : JobKey} {value : Str}
    (h : applyKey s d key index value = .ok d') (hx : x.Recovered i d') :
    x.Recovered i d ∨ (key = .item x.kind ∧ index = i ∧ x.Decodes value) := by
  rcases key with k | k | _ | a | a
  case num =>
    rw [← ok.inj h] at hx
    cases x <;> exact Or.inl hx
  case str =>
    rw [← ok.inj h] at hx
    cases x <;> exact Or.inl hx
  case queuename =>
    rw [applyKey] at h
    split at h
    · simp at h
    · rw [← ok.inj h] at hx
      cases x <;> exact Or.inl hx
  case count =>
    cases a <;> rw [applyKey, map_eq_ok_iff] at h <;> obtain ⟨l, hl, rfl⟩ := h <;> cases x
    case env.env => exact absurd hx (allocate_getElem? hl)
    case tag.tag => exact absurd hx (allocate_getElem? hl)
    all_goals exact Or.inl hx
  case item =>
    cases a
    case res =>
      rw [applyKey] at h
      split at h
      · simp at h
      · obtain ⟨l, -, rfl⟩ := map_eq_ok_iff.mp h
        cases x <;> exact Or.inl hx
    all_goals
      rw [applyKey, map_eq_ok_iff] at h
      obtain ⟨l, hl, rfl⟩ := h
      cases x
    case env.env e =>
      rcases assign_getElem? hl hx with ⟨hi, he⟩ | hx
      · exact Or.inr ⟨rfl, hi, he⟩
      · exact Or.inl hx
    case tag.tag t =>
      rcases assign_getElem? hl hx with ⟨hi, he⟩ | hx
      · exact Or.inr ⟨rfl, hi, he⟩
      · exact Or.inl hx
    all_goals exact Or.inl hx

/-- The line of a raw item and the lines that its newlines cut off. -/
theorem RawItem.mem_pieces_itemLine (h : p ∈ pieces (itemLine x.kind i x.text)) :
    ('\n' ∉ x.pre ∧ p = itemLine x.kind i x.text) ∨ ∃ first rest, x.pre = first ++ '\n' :: rest ∧
        (p = itemLine x.kind i first ∨ p ∈ pieces (rest ++ x.post)) := by
  have hkey : '\n' ∉ indexedKey (item x.kind).name i ++ [' '] := by
    intro hm
    rcases mem_append.mp hm with hm | hm
    · exact (mem_indexedKey_name hm).2 rfl
    · exact absurd (mem_singleton.mp hm) (by decide)
  have hline : ∀ raw, itemLine x.kind i raw =
      (indexedKey (item x.kind).name i ++ [' ']) ++ raw := fun raw ↦ by simp [itemLine]
  by_cases hnl : '\n' ∈ x.pre
  · obtain ⟨first, rest, hpre, hfirst⟩ := eq_append_cons_of_mem hnl
    refine Or.inr ⟨first, rest, hpre, ?_⟩
    have hpieces : pieces x.text = first :: pieces (rest ++ x.post) := by
      rw [text, hpre, append_assoc, cons_append, pieces_newline hfirst]
    rw [hline, pieces_append hkey hpieces, mem_cons] at h
    rw [hline]
    exact h
  · have htext : '\n' ∉ x.text := fun hm ↦ (mem_append.mp hm).elim hnl x.notMem_post
    rw [hline, pieces_append hkey (pieces_of_notMem htext), mem_singleton] at h
    exact Or.inl ⟨hnl, h.trans (hline _).symm⟩

/-- **A longest raw text with a newline is lost.** No line of the file holds a value that stands
for it: its own first line ends at the newline, and the lines behind newlines are too short. -/
theorem not_decodes_of_newline (hx : x.At j i) (hnl : '\n' ∈ x.pre)
    (hmax : ∀ (y : RawItem) (k : ℕ), y.At j k → '\n' ∈ y.pre → y.size ≤ x.size)
    (hline : WrittenLine j line) (hp : p ∈ pieces line)
    (hkv : loadKeyValue p = some kv) (hkey : kv.key = (JobKey.item x.kind).name)
    (hindex : kv.index = i) : ¬x.Decodes kv.value := by
  intro hdec
  obtain ⟨hlen, hsize⟩ := hdec.length
  have hinj : ∀ {k : JobKey}, kv.key = k.name → k = .item x.kind := fun hk ↦
    some.inj ((ofName_name _).symm.trans
      ((congrArg ofName (hk.symm.trans hkey)).trans (ofName_name _)))
  cases hline with
  | comment hraw =>
    rw [pieces_of_notMem (by simpa using hraw), mem_singleton] at hp
    rw [hp, loadKeyValue, skipWhitespace_cons_of_not_blank (by decide)] at hkv
    simp at hkv
  | @key k raw hk hraw =>
    rw [pieces_of_notMem (notMem_keyLine hraw), mem_singleton] at hp
    rw [hp, loadKeyValue_keyLine] at hkv
    exact hk _ (hinj (congrArg KeyValue.key (some.inj hkv)).symm)
  | @plain a i' raw ha ha' hi hraw =>
    rw [pieces_of_notMem (notMem_itemLine hraw), mem_singleton] at hp
    rw [hp, loadKeyValue_itemLine a hi] at hkv
    have hkind : a = x.kind :=
      item.inj (hinj (congrArg KeyValue.key (some.inj hkv)).symm)
    cases x
    · exact ha hkind
    · exact ha' hkind
  | @raw y i' hy hi =>
    -- a line that begins with the key of `y` can only set the slot of `x` if `y` is `x`
    have hsame : ∀ {raw : Str}, loadKeyValue (itemLine y.kind i' raw) = some kv →
        y = x ∧ kv.value = unescapeString raw := by
      intro raw hkv
      rw [loadKeyValue_itemLine _ hi] at hkv
      have hkv := some.inj hkv
      have hkind := item.inj (hinj (congrArg KeyValue.key hkv).symm)
      have hidx : (i' : ℤ) = i := (congrArg KeyValue.index hkv).trans hindex
      obtain rfl : i' = i := by omega
      exact ⟨hy.unique hx hkind, (congrArg KeyValue.value hkv).symm⟩
    rcases RawItem.mem_pieces_itemLine hp with ⟨hfree, rfl⟩ | ⟨first, rest, hpre, rfl | hp⟩
    · exact hfree ((hsame hkv).1 ▸ hnl)
    · obtain ⟨rfl, hvalue⟩ := hsame hkv
      have hfirst := length_unescapeString_le first
      rw [hvalue, hpre, length_append, length_cons] at hlen
      omega
    · have hshort := RawItem.length_value_of_mem_pieces hpre hp hkv
      have hle := hmax y i' hy (by rw [hpre]; simp)
      omega

theorem RawItem.exists_longest (hnl : ∃ (y : RawItem) (k : ℕ), y.At j k ∧ '\n' ∈ y.pre) :
    ∃ (x : RawItem) (i : ℕ), x.At j i ∧ '\n' ∈ x.pre ∧
      ∀ (y : RawItem) (k : ℕ), y.At j k → '\n' ∈ y.pre → y.size ≤ x.size := by
  have hmem : ∀ y : RawItem, (∃ k, y.At j k) ↔ y ∈ j.envs.map env ++ j.tags.map tag := by
    rintro (e | t)
    · rw [show (∃ k, (env e).At j k) ↔ e ∈ j.envs from mem_iff_getElem?.symm]
      simp
    · rw [show (∃ k, (tag t).At j k) ↔ t ∈ j.tags from mem_iff_getElem?.symm]
      simp
  let items := (j.envs.map env ++ j.tags.map tag).toFinset.filter fun y ↦ '\n' ∈ y.pre
  have hitems : ∀ {y : RawItem}, y ∈ items ↔ (∃ k, y.At j k) ∧ '\n' ∈ y.pre := by
    intro y
    rw [Finset.mem_filter, List.mem_toFinset, hmem]
  obtain ⟨y, k, hy, hynl⟩ := hnl
  obtain ⟨x, hx, hmax⟩ := items.exists_max_image size ⟨y, hitems.mpr ⟨⟨k, hy⟩, hynl⟩⟩
  obtain ⟨⟨i, hi⟩, hxnl⟩ := hitems.mp hx
  exact ⟨x, i, hi, hxnl, fun z m hz hznl ↦ hmax z (hitems.mpr ⟨⟨m, hz⟩, hznl⟩)⟩

/-- If a raw text of the job holds a newline, some raw text is not read back. -/
theorem exists_not_recovered (hj : j.WellFormed s)
    (hload : (getlines ((jobLines now j qname (j.reqResources.map (JobResource.text s))).flatMap
      (· ++ ['\n']))).foldlM (loadLine s) {} = .ok d)
    (hnl : ∃ (y : RawItem) (k : ℕ), y.At j k ∧ '\n' ∈ y.pre) :
    ∃ (x : RawItem) (i : ℕ), x.At j i ∧ ¬x.Recovered i d := by
  obtain ⟨x, i, hx, hxnl, hmax⟩ := RawItem.exists_longest hnl
  refine ⟨x, i, hx, foldlM_invariant (P := fun d ↦ ¬x.Recovered i d)
    (fun b p b' hp hb hstep hrec ↦ ?_) ?_ hload⟩
  · -- one line: it does not hold a value for `x`
    rw [getlines_flatMap] at hp
    obtain ⟨line, hline, hp⟩ := mem_flatMap.mp hp
    rw [loadLine] at hstep
    split at hstep
    · exact hb (ok.inj hstep ▸ hrec)
    · next kv hkv =>
      split at hstep
      · exact hb (ok.inj hstep ▸ hrec)
      · next key hkey =>
        rcases hrec.of_applyKey hstep with hb' | ⟨rfl, hindex, hdec⟩
        · exact hb hb'
        · have hname : kv.key = (item x.kind).name := by
            have := find?_some hkey
            exact (beq_iff_eq.mp this).symm
          exact not_decodes_of_newline hx hxnl hmax (.of_mem_jobLines hj hline) hp hkv hname hindex
            hdec
  · cases x <;> simp [RawItem.Recovered]

/-! ### The round trip -/

/-- The fields a state file is meant to keep. -/
structure Job.SameSaved (j j' : Job) : Prop where
  jobid : j'.jobid = j.jobid
  revision : j'.obj.revision = j.obj.revision
  jobname : j'.jobname = j.jobname
  queue : j'.queue = j.queue
  shell : j'.shell = j.shell
  wrapper : j'.wrapper = j.wrapper
  preCmd : j'.preCmd = j.preCmd
  postCmd : j'.postCmd = j.postCmd
  stdout : j'.stdout = j.stdout
  stderr : j'.stderr = j.stderr
  argv : j'.argv = j.argv
  envs : j'.envs = j.envs
  tags : j'.tags = j.tags
  resCount : j'.resCount = j.resCount
  reqResources : j'.reqResources = j.reqResources
  uid : j'.uid = j.uid
  submitter : j'.submitter = j.submitter
  nice : j'.nice = j.nice
  state : j'.state = j.state
  priority : j'.priority = j.priority
  submitTime : j'.submitTime = j.submitTime
  startTime : j'.startTime = j.startTime
  deferTime : j'.deferTime = j.deferTime
  finishTime : j'.finishTime = j.finishTime
  exitcode : j'.exitcode = j.exitcode
  signal : j'.signal = j.signal
  failReason : j'.failReason = j.failReason
  flags : j'.flags = j.flags
  usage : j.finishTime ≠ 0 → j'.usage = j.usage

/-- An environment entry that is read as it was written. -/
def EnvKept (e : Str) : Prop := '\n' ∉ e ∧ '\\' ∉ e.dropLast

/-- A tag that is read as it was written: its key has no newline, no tab and no backslash. (A tag
without a value is read with an empty one, unless its key ends in a backslash, which then swallows
the tab.) -/
def TagKept (t : Str × Option Str) : Prop :=
  '\n' ∉ t.1 ∧ '\t' ∉ t.1 ∧ '\\' ∉ t.1.dropLast ∧ ('\\' ∈ t.1 ↔ t.2 = none)

instance (e : Str) : Decidable (EnvKept e) := inferInstanceAs (Decidable (_ ∧ _))

instance (t : Str × Option Str) : Decidable (TagKept t) := inferInstanceAs (Decidable (_ ∧ _))

/-- The jobs that survive their state file. -/
structure Job.Kept (j : Job) : Prop where
  wrapper : j.wrapper = none
  failReason : j.failReason = 0
  nice : j.nice ≠ unset32
  state : j.state ≠ .cleared
  envs : ∀ e ∈ j.envs, EnvKept e
  tags : ∀ t ∈ j.tags, TagKept t

theorem splitTag_unescapeString_tagText_iff {t : Str × Option Str} :
    splitTag (unescapeString (tagText t)) = t ↔
      '\t' ∉ t.1 ∧ '\\' ∉ t.1.dropLast ∧ ('\\' ∈ t.1 ↔ t.2 = none) := by
  rw [tagText, unescapeString_append_tab, unescapeString_escapeString]
  obtain ⟨k, w | w⟩ := t
  · rw [splitTag_eq_none_iff, getD_none, append_nil]
    constructor
    · rintro ⟨hv, htab⟩
      by_cases hd : dangling k = true
      · rw [if_pos hd, append_nil] at hv
        have hplain := (unescapeString_eq_self_iff k).mp hv
        exact ⟨htab, hplain, by simp [(dangling_iff_of_notMem_dropLast hplain).mp hd]⟩
      · rw [if_neg hd] at hv
        exact absurd (hv ▸ mem_append_right _ (mem_singleton_self _)) htab
    · rintro ⟨htab, hplain, hslash⟩
      have hd := (dangling_iff_of_notMem_dropLast hplain).mpr (hslash.mpr rfl)
      exact ⟨by rw [if_pos hd, append_nil, (unescapeString_eq_self_iff k).mpr hplain], htab⟩
  · rw [splitTag_eq_some_iff, getD_some]
    constructor
    · rintro ⟨hv, htab⟩
      have hlen := congrArg length hv
      have hle := length_unescapeString_le k
      by_cases hd : dangling k = true
      · rw [if_pos hd] at hlen
        simp only [length_append, length_cons, length_nil] at hlen
        omega
      · rw [if_neg hd] at hlen
        simp only [length_append, length_cons, length_nil] at hlen
        have hplain := (length_unescapeString_eq_iff k).mp (by omega)
        have hslash := mt (dangling_iff_of_notMem_dropLast hplain).mpr hd
        exact ⟨htab, hplain, by simp [hslash]⟩
    · rintro ⟨htab, hplain, hslash⟩
      have hd : ¬dangling k = true := fun hd ↦
        absurd (hslash.mp ((dangling_iff_of_notMem_dropLast hplain).mp hd)) (by simp)
      refine ⟨?_, htab⟩
      rw [if_neg hd, (unescapeString_eq_self_iff k).mpr hplain]
      simp

/-- The job that is read back when the lines of the file are the lines that were written. -/
def Job.back (j : Job) : Job :=
  { j with
    obj := { revision := j.obj.revision }
    wrapper := none
    envs := j.envs.map unescapeString
    nice := j.numBack .nice
    pid := 0
    usage := fun k ↦ j.numBack (.usage k)
    state := if j.state = .cleared then .pending else j.state
    pendReason := 0
    failReason := 0
    tags := j.tags.map fun t ↦ splitTag (unescapeString (tagText t))
    internalState := {}
    history := {} }

theorem written_map (f : α → β) (l : List α) :
    written (l.map fun x ↦ some (f x)) = .ok (l.map f) := by
  have hmapM : (l.map fun x ↦ some (f x)).mapM id = some (l.map f) := by
    induction l with
    | nil => rfl
    | cons x l ih => rw [map_cons, mapM_cons, ih]; rfl
  rw [written, hmapM]

/-- The job is made from the draft that its lines have filled. -/
theorem finishJob_draftBack (hj : j.WellFormed s) : finishJob j.jobid j.draftBack = .ok j.back := by
  have hargv : written (j.argv.map some) = .ok j.argv := by simpa using written_map id j.argv
  have hres : written (j.reqResources.map some) = .ok j.reqResources := by
    simpa using written_map id j.reqResources
  have hcount := hj.resCount
  simp only [finishJob, Job.draftBack, Job.str, Job.numBack, Job.num, JobState.ofInt_toInt, hargv,
    written_map, hres, ok_bind, Int.toNat_natCast, ← hcount]
  rfl

theorem atoi_jobFileName (h : jobid < 2 ^ 32) :
    (atoi (jobFileName jobid) % 2 ^ 32).toNat = jobid := by
  have hstop : NotDigitHead ".job".toList := by
    intro c t hc
    rw [← (cons.inj hc).1]
    decide
  rw [jobFileName, atoi_int64tostr (isInt32_bmod _) hstop, bmod_emod_of_lt (by omega) (by omega),
    Int.toNat_natCast]

theorem map_eq_self_iff {f : α → α} {l : List α} : l.map f = l ↔ ∀ x ∈ l, f x = x := by
  conv_lhs => rw [← List.map_id l, List.map_map]
  exact map_inj_left

/-- The job that is read back agrees with the written one exactly when the job is kept. -/
theorem Job.sameSaved_back_iff (henvs : ∀ e ∈ j.envs, '\n' ∉ e) (htags : ∀ t ∈ j.tags, '\n' ∉ t.1) :
    j.SameSaved j.back ↔ j.Kept := by
  constructor
  · intro h
    refine ⟨h.wrapper.symm, h.failReason.symm, fun hnice ↦ ?_, fun hstate ↦ ?_, fun e he ↦ ?_,
      fun t ht ↦ ?_⟩
    · have hback := h.nice
      rw [show j.back.nice = if j.nice = unset32 then 0 else j.nice from rfl, if_pos hnice,
        hnice] at hback
      exact absurd hback (by decide)
    · have hback := h.state
      rw [show j.back.state = if j.state = .cleared then .pending else j.state from rfl,
        if_pos hstate, hstate] at hback
      exact absurd hback (by decide)
    · exact ⟨henvs e he, (unescapeString_eq_self_iff e).mp (map_eq_self_iff.mp h.envs e he)⟩
    · exact ⟨htags t ht, splitTag_unescapeString_tagText_iff.mp (map_eq_self_iff.mp h.tags t ht)⟩
  · intro h
    have hnice : j.back.nice = j.nice := if_neg h.nice
    have hstate : j.back.state = j.state := if_neg h.state
    have hback : j.back.envs = j.envs :=
      map_eq_self_iff.mpr fun e he ↦ (unescapeString_eq_self_iff e).mpr (h.envs e he).2
    have hbackTags : j.back.tags = j.tags :=
      map_eq_self_iff.mpr fun t ht ↦ splitTag_unescapeString_tagText_iff.mpr (h.tags t ht).2
    have husage : j.finishTime ≠ 0 → j.back.usage = j.usage := fun hf ↦ funext fun k ↦ if_neg hf
    exact {
      jobid := rfl, revision := rfl, jobname := rfl, queue := rfl, shell := rfl
      wrapper := h.wrapper.symm, preCmd := rfl, postCmd := rfl, stdout := rfl, stderr := rfl
      argv := rfl, envs := hback, tags := hbackTags, resCount := rfl, reqResources := rfl
      uid := rfl, submitter := rfl, nice := hnice, state := hstate, priority := rfl
      submitTime := rfl, startTime := rfl, deferTime := rfl, finishTime := rfl
      exitcode := rfl, signal := rfl, failReason := h.failReason.symm, flags := rfl
      usage := husage }

/-- What `stateSaveJob` writes for a job whose queue and resources are there. -/
theorem stateSaveJob_eq (hj : j.WellFormed s) (now : ℤ) :
    ∃ q, s.findQueue q.name = some (j.queue, q) ∧ stateSaveJob s now j =
      .ok ((jobLines now j q.name (j.reqResources.map (JobResource.text s))).flatMap
        (· ++ ['\n'])) := by
  obtain ⟨q, hget, hfind⟩ := hj.queue
  have hreqs : j.requirements = .ok j.reqResources := by
    rw [Job.requirements, if_pos hj.resCount.le, hj.resCount, Int.toNat_natCast, take_length]
  refine ⟨q, hfind, ?_⟩
  rw [stateSaveJob, hget]
  simp only [hreqs, ok_bind, JobResource.Linked.mapM_resText hj.linked]
  rfl

/-- Without a newline in a raw text, the lines that are read are the lines that were written. -/
theorem flatMap_pieces_jobLines (hj : j.WellFormed s)
    (hfree : ∀ (x : RawItem) (i : ℕ), x.At j i → '\n' ∉ x.pre) (now : ℤ) (qname : Str) :
    (jobLines now j qname (j.reqResources.map (JobResource.text s))).flatMap pieces =
      jobLines now j qname (j.reqResources.map (JobResource.text s)) := by
  have hline : ∀ line ∈ jobLines now j qname (j.reqResources.map (JobResource.text s)),
      pieces line = [line] := by
    intro line hmem
    refine pieces_of_notMem ?_
    cases WrittenLine.of_mem_jobLines hj hmem with
    | comment hraw => simpa using hraw
    | key hk hraw => exact notMem_keyLine hraw
    | plain ha ha' hi hraw => exact notMem_itemLine hraw
    | @raw x i hx hi => exact notMem_itemLine (by simp [RawItem.text, hfree x i hx, x.notMem_post])
  rw [flatMap_congr hline, flatMap_singleton']

theorem stateLoadJob_of_no_newline (hj : j.WellFormed s)
    (hfree : ∀ (x : RawItem) (i : ℕ), x.At j i → '\n' ∉ x.pre) {q : Queue}
    (hq : s.findQueue q.name = some (j.queue, q)) : stateLoadJob s (jobFileName j.jobid)
      ((jobLines now j q.name (j.reqResources.map (JobResource.text s))).flatMap (· ++ ['\n'])) =
      .ok j.back := by
  rw [stateLoadJob, getlines_flatMap, flatMap_pieces_jobLines hj hfree, foldlM_jobLines hj now hq,
    ok_bind, atoi_jobFileName hj.jobid, finishJob_draftBack hj]

theorem eq_map_of_written {l : List α} (h : written array = .ok l) : array = l.map some := by
  have hmapM : ∀ (array : List (Option α)) (l : List α), array.mapM id = some l →
      array = l.map some := by
    intro array
    induction array with
    | nil =>
      intro l h
      rw [← some.inj (show some [] = some l from h)]
      rfl
    | cons x array ih =>
      intro l h
      rw [mapM_cons] at h
      obtain ⟨y, hy, h⟩ := bind_eq_some_iff.mp h
      obtain ⟨ys, hys, h⟩ := bind_eq_some_iff.mp h
      rw [← some.inj (show some (y :: ys) = some l from h), map_cons, ← ih ys hys]
      exact congrArg (· :: array) hy
  rw [written] at h
  split at h
  · simp at h
  · next l' hl => exact ok.inj h ▸ hmapM array l' hl

/-- What a job takes over from its draft. -/
structure JobDraft.Finished (jobid : ℕ) (d : JobDraft) (j : Job) : Prop where
  jobid : j.jobid = jobid
  revision : j.obj.revision = d.num .revision
  queue : d.queue = some j.queue
  envs : d.envs = j.envs.map some
  tags : d.tags = j.tags.map some
  res : d.res = j.reqResources.map some
  resCount : j.resCount = j.reqResources.length
  flags : j.internalState = {}

theorem finishJob_fields {j' : Job} (h : finishJob jobid d = .ok j') : d.Finished jobid j' := by
  rw [finishJob] at h
  split at h
  · next hqueue =>
    split at h
    · split at h
      · obtain ⟨argv, -, h⟩ := bind_eq_ok_iff.mp h
        obtain ⟨envs, henvs, h⟩ := bind_eq_ok_iff.mp h
        obtain ⟨tags, htags, h⟩ := bind_eq_ok_iff.mp h
        obtain ⟨res, hres, h⟩ := bind_eq_ok_iff.mp h
        rw [← ok.inj h]
        exact ⟨rfl, rfl, hqueue, eq_map_of_written henvs, eq_map_of_written htags,
          eq_map_of_written hres, rfl, rfl⟩
      · exact absurd h (by simp [throw, throwThe, MonadExceptOf.throw])
    · exact absurd h (by simp [throw, throwThe, MonadExceptOf.throw])
  · exact absurd h (by simp [throw, throwThe, MonadExceptOf.throw])

theorem recovered_of_finishJob {j' : Job} (h : finishJob jobid d = .ok j') (hsame : j.SameSaved j')
    (hx : x.At j i) : x.Recovered i d := by
  have hfin := finishJob_fields h
  cases x with
  | env e =>
    show d.envs[i]? = some (some e)
    rw [hfin.envs, hsame.envs, getElem?_map, show j.envs[i]? = some e from hx, map_some]
  | tag t =>
    show d.tags[i]? = some (some t)
    rw [hfin.tags, hsame.tags, getElem?_map, show j.tags[i]? = some t from hx, map_some]

/-- **Which jobs survive their state file.** The file that `stateSaveJob` writes for a job is read
back by `stateLoadJob` with every saved field unchanged exactly when the job has no wrapper and no
failure reason, a nice value, a state, and no newline, tab or escape in the texts that are written
as they are. -/
theorem stateLoadJob_stateSaveJob_iff (hj : j.WellFormed s) (now : ℤ) :
    (∃ text j', stateSaveJob s now j = .ok text ∧
      stateLoadJob s (jobFileName j.jobid) text = .ok j' ∧ j.SameSaved j') ↔ j.Kept := by
  obtain ⟨q, hq, hsave⟩ := stateSaveJob_eq hj now
  have hraw : (∀ (x : RawItem) (i : ℕ), x.At j i → '\n' ∉ x.pre) →
      (∀ e ∈ j.envs, '\n' ∉ e) ∧ ∀ t ∈ j.tags, '\n' ∉ t.1 := by
    intro hfree
    refine ⟨fun e he ↦ ?_, fun t ht ↦ ?_⟩
    · obtain ⟨i, hi⟩ := mem_iff_getElem?.mp he
      exact hfree (.env e) i hi
    · obtain ⟨i, hi⟩ := mem_iff_getElem?.mp ht
      exact hfree (.tag t) i hi
  constructor
  · rintro ⟨text, j', htext, hload, hsame⟩
    obtain rfl := ok.inj (hsave.symm.trans htext)
    -- a newline in a raw text would lose one of them
    have hfree : ∀ (x : RawItem) (i : ℕ), x.At j i → '\n' ∉ x.pre := by
      intro y k hy hynl
      obtain ⟨d, hd, hfinish⟩ := bind_eq_ok_iff.mp hload
      obtain ⟨x, i, hx, hnot⟩ := exists_not_recovered hj hd ⟨y, k, hy, hynl⟩
      exact hnot (recovered_of_finishJob hfinish hsame hx)
    obtain rfl := ok.inj ((stateLoadJob_of_no_newline hj hfree hq).symm.trans hload)
    exact (Job.sameSaved_back_iff (hraw hfree).1 (hraw hfree).2).mp hsame
  · intro hkept
    have hfree : ∀ (x : RawItem) (i : ℕ), x.At j i → '\n' ∉ x.pre := by
      rintro (e | t) i hi
      · exact (hkept.envs e (mem_of_getElem? hi)).1
      · exact (hkept.tags t (mem_of_getElem? hi)).1
    exact ⟨_, _, hsave, stateLoadJob_of_no_newline hj hfree hq,
      (Job.sameSaved_back_iff (hraw hfree).1 (hraw hfree).2).mpr hkept⟩

/-- Tables with one queue and one resource. -/
def sampleTables : Tables where
  jobTable := .empty
  queueTable := Table.empty.push
    { name := "night".toList, jobLimit := 4, state := 3, priority := 100, nice := 0
      host := "localhost".toList }
  resTable := Table.empty.push { name := "licence".toList, count := 2 }

/-- A finished job with awkward texts: escapes in the name, an argument with a newline, an
environment entry that ends in a backslash, a tab in the value of a tag. -/
def sampleJob : Job where
  obj := { revision := 12 }
  jobid := 7
  jobname := "a\\n b\n".toList
  queue := 0
  shell := some "/bin/sh".toList
  argv := ["first\nsecond".toList, []]
  envs := ["HOME=/root\\".toList]
  uid := 4294967294
  submitter := 1000
  nice := -5
  state := .exited
  exitcode := 3
  finishTime := 17
  usage := fun _ ↦ -1
  tags := [("key".toList, some "x\ty".toList)]
  resCount := 1
  reqResources := [{ needed := 2, res := 0 }]

theorem sampleJob_wellFormed : sampleJob.WellFormed sampleTables where
  jobid := by decide
  num := by
    rintro (_ | _ | _ | _ | _ | _ | _ | _ | _ | _ | _ | _ | _ | ⟨k⟩)
    case usage => cases k <;> decide
    all_goals decide
  argv := by decide
  envs := by decide
  tags := by decide
  res := by decide
  resCount := by decide
  queue := ⟨_, rfl, by decide⟩
  linked := by
    intro r hr
    obtain rfl := mem_singleton.mp hr
    exact ⟨by decide, _, rfl, by decide, by decide⟩

/-- A job with all kinds of lines. -/
theorem stateLoadJob_stateSaveJob_sampleJob :
    ∃ text j', stateSaveJob sampleTables 0 sampleJob = .ok text ∧
      stateLoadJob sampleTables (jobFileName sampleJob.jobid) text = .ok j' ∧
      sampleJob.SameSaved j' :=
  (stateLoadJob_stateSaveJob_iff sampleJob_wellFormed 0).mpr
    ⟨rfl, rfl, by decide, by decide, by decide, by decide⟩

/-- The same job without a nice value, with a wrapper and a failure reason, and with a newline in
an environment entry. -/
def lossyJob : Job :=
  { sampleJob with
    nice := unset32
    wrapper := some "/bin/wrap".toList
    failReason := 4
    envs := ["A=1\nSUBMITTER 0".toList] }

/-- **Fields that are lost.** The nice value comes back as 0, the wrapper and the failure reason
are gone, and the newline in the environment entry overwrites the submitter. -/
theorem stateLoadJob_stateSaveJob_lossyJob :
    let back := stateSaveJob sampleTables 0 lossyJob >>=
      stateLoadJob sampleTables (jobFileName lossyJob.jobid)
    lossyJob.WellFormed sampleTables ∧
      back.map (fun j' ↦ (j'.nice, j'.wrapper, j'.failReason)) = .ok (0, none, 0) ∧
      back.map (fun j' ↦ (j'.envs, j'.submitter)) = .ok (["A=1".toList], 0) := by
  refine ⟨{ sampleJob_wellFormed with num := ?_, envs := by decide }, by decide +kernel,
    by decide +kernel⟩
  rintro (_ | _ | _ | _ | _ | _ | _ | _ | _ | _ | _ | _ | _ | ⟨k⟩)
  case usage => cases k <;> decide
  all_goals decide

end Jers
