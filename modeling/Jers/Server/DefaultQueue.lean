import Jers.Server.Disk
import Jers.Server.Flushing
import Jers.Server.QueueAcl
import Jers.Server.Revisions
import Jers.State.QueueRoundTrip
import Mathlib.Data.Char
import Mathlib.Data.List.Lex

/-!
# The default queue and the state files

The file of a queue says that the queue is the default one if it was when the file was written. When
another queue becomes the default, the file of the former one is written again only if that queue is
dirty for some other reason. At a restart `stateLoadQueues` takes the files in the order of their
names, and each marked file makes its queue the default: the last one wins, which need not be the
queue that was the default before.

The default queue survives (`defaultSurvives_of_diskRuns`) as long as every other queue with a
marked file is about to be saved when a queue is made the default, the default queue is not freed,
and every file can be read back as it was meant: no text has a newline in it, and no name starts
with a dot, since `glob` passes such files over.
-/

namespace Jers

open Exec List Option Table Sample

/-! ### Loading the queue files -/

/-- The files that match `*.queue`, in the order of their names. -/
def globQueues (files : List (Str × Str)) : List (Str × Str) :=
  (files.filter fun f ↦ (queueFileName f.1).head? != some '.').insertionSort fun f g ↦
    queueFileName f.1 ≤ queueFileName g.1

def stateLoadQueues (env : Env) (files : List (Str × Str)) : Daemon Unit :=
  each (fun f ↦ do
    let q ← lift (stateLoadQueue (queueFileName f.1) f.2)
    let _ ← addQueue env none q false) (globQueues files)

/-- The default queue by its name. A queue that has been freed has none. -/
def Server.defaultName (s : Server) : Option (Option Str) :=
  s.defaultQueue.map fun b ↦ (s.queueTable.get? b).map Queue.name

/-- **The default queue survives a restart**, once every queue is saved. -/
def DefaultSurvives (config : Config) (hosts : List Str) (x : OnDisk) : Prop :=
  x.server.flush = none → (∀ b q, x.server.queueTable.get? b = some q → q.obj.dirty = false) →
    ∀ env, ∃ s', stateLoadQueues env x.disk.queues (Server.initial config hosts) = .ok ((), s') ∧
      s'.defaultName = x.server.defaultName

/-! ### One file -/

/-- The file makes its queue the default. -/
def marked (f : Str × Str) : Bool :=
  match stateLoadQueue (queueFileName f.1) f.2 with
  | .ok q => q.isDefault != 0
  | .error _ => false

/-- The texts of the queue are read back as they are, and its file is found. -/
structure Queue.Plain (q : Queue) : Prop where
  name : '\n' ∉ q.name
  desc : ∀ d, q.desc = some d → '\n' ∉ d
  host : '\n' ∉ q.host
  visible : (queueFileName q.name).head? ≠ some '.'

variable {now : ℤ} {q' : Queue} {x : OnDisk} {qm : QueueRequest} {name : Str} {q : Queue}
  {c c' : Core} {isDefault : Bool} {s s' : Server}

/-- **A queue file is read back**: it loads, and it is marked if the queue was the default queue. -/
theorem stateLoadQueue_plain (now : ℤ) (isDefault : Bool) (hq : q.Plain) :
    ∃ q', stateLoadQueue (queueFileName q.name) (stateSaveQueue now isDefault q) = .ok q' ∧
      q'.isDefault = if isDefault then 1 else 0 :=
  ⟨_, stateLoadQueue_saved now isDefault hq.name hq.desc hq.host, rfl⟩

theorem marked_saved (hq : q.Plain) :
    marked (q.name, stateSaveQueue now isDefault q) = isDefault := by
  obtain ⟨q', hload, hmark⟩ := stateLoadQueue_plain now isDefault hq
  rw [marked, hload]
  show (q'.isDefault != 0) = isDefault
  rw [hmark]
  cases isDefault <;> rfl

/-! ### All files -/

/-- The default queue, if there is one, is in the table. -/
def DefaultLives (s : Server) : Prop := ∀ b, s.defaultQueue = some b → (s.queueTable.get? b).isSome

/-- **The queue files are loaded**: the default queue is the one with a marked file, if all the
marked files are those of one queue. -/
theorem each_load_default (env : Env) {n : Str} {l : List (Str × Str)}
    (hload : ∀ f ∈ l, ∃ q, stateLoadQueue (queueFileName f.1) f.2 = .ok q)
    (hmark : ∀ f ∈ l, marked f = true → f.1 = n) {s : Server} (hlives : DefaultLives s)
    (hacl : ∀ acl ∈ s.config.queueAcls, acl.overruns = false) :
    ∃ s', each (fun f ↦ do
        let q ← lift (stateLoadQueue (queueFileName f.1) f.2)
        let _ ← addQueue env none q false) l s = .ok ((), s') ∧
      s'.defaultName = if ∃ f ∈ l, marked f = true then some (some n) else s.defaultName := by
  induction l generalizing s with
  | nil => exact ⟨s, rfl, by simp⟩
  | cons f l ih =>
    obtain ⟨q, hq⟩ := hload f mem_cons_self
    have hclear : overrun env s.config.queueAcls q.name = false := by
      rw [overrun, List.any_eq_false]
      intro acl hmem
      simp [hacl acl hmem]
    obtain ⟨b, t, -, hadd, -⟩ := addQueue_runs env none q false hclear
    obtain ⟨hb, htable, hdefault, hconfig⟩ := addQueue_ok hadd
    have hold {a : Addr} (ha : (s.queueTable.get? a).isSome) : t.queueTable.get? a =
        s.queueTable.get? a := by
      obtain ⟨v, hv⟩ := isSome_iff_exists.mp ha
      rw [htable, if_neg]
      exact hb ▸ (lt_next hv).ne
    have hmarked : marked f = (q.isDefault != 0) := by rw [marked, hq]
    have htlives : DefaultLives t := by
      intro a ha
      rw [hdefault] at ha
      split at ha
      · obtain rfl := some.inj ha
        rw [htable, if_pos rfl]
        rfl
      · rw [hold (hlives a ha)]
        exact hlives a ha
    have htname : t.defaultName = if marked f = true then some (some n) else s.defaultName := by
      rw [Server.defaultName, hdefault, hmarked]
      by_cases hd : q.isDefault = 0
      · rw [if_neg (not_not.mpr hd), if_neg (by simp [hd]), Server.defaultName]
        cases hs : s.defaultQueue with
        | none => rfl
        | some a => exact congrArg (fun o ↦ some (o.map Queue.name)) (hold (hlives a hs))
      · have hn := hmark f mem_cons_self (by simp [hmarked, hd])
        rw [if_pos hd, if_pos (by simp [hd]), map_some, htable, if_pos rfl, ← hn,
          ← stateLoadQueue_name hq]
        rfl
    obtain ⟨s', hs', hname⟩ := ih (fun g hg ↦ hload g (mem_cons_of_mem _ hg))
      (fun g hg ↦ hmark g (mem_cons_of_mem _ hg)) htlives (hconfig ▸ hacl)
    refine ⟨s', ?_, ?_⟩
    · have hround : (do
          let q ← lift (stateLoadQueue (queueFileName f.1) f.2)
          let _ ← addQueue env none q false : Daemon Unit) s = .ok ((), t) :=
        bind_ok_iff.mpr ⟨q, s, lift_ok_iff.mpr ⟨hq, rfl⟩, bind_ok_iff.mpr ⟨b, t, hadd, rfl⟩⟩
      exact bind_ok_iff.mpr ⟨(), t, hround, hs'⟩
    · rw [hname, htname]
      simp only [exists_mem_cons_iff]
      by_cases hf : marked f = true
      · rw [if_pos hf, ite_self]
        exact (if_pos (.inl hf)).symm
      · rw [if_neg hf]
        exact if_congr (or_iff_right hf).symm rfl rfl

/-! ### The condition -/

/-- Every other queue with a marked file is about to be saved. -/
def othersDirty (x : OnDisk) (name : Str) : Bool :=
  x.disk.queues.all fun f ↦ f.1 == name || !marked f ||
    x.server.queueTable.rows.any fun r ↦ r.2.name == f.1 && r.2.obj.dirty

/-- The texts of the request are lines. -/
def QueueRequest.readable (qr : QueueRequest) : Bool :=
  qr.desc.all (fun t ↦ !t.contains '\n') && qr.node.all fun t ↦ !t.contains '\n'

/-- A new queue with a name has a file that is found, and no marked queue is lost by the request for
it. -/
def namedSafely (env : Env) (x : OnDisk) (qa : QueueRequest) (name : Str) : Bool :=
  (queueFileName name).head? != some '.' &&
    ((findAgent env x.server (qa.node.getD "localhost".toList)).isSome ||
      (x.server.findQueue name).all fun r ↦ x.server.defaultQueue != some r.1 &&
        !x.disk.queues.any fun f ↦ f.1 == name && marked f)

/-- **The default queue is kept** by the event: a request that makes a queue the default comes when
every other queue with a marked file is dirty, the default queue is not freed, what is written can
be read back, and saves succeed. -/
def defaultKept (x : OnDisk) : Env × Event → Bool
  | (env, .client _ (.addQueue qa)) =>
    let name := lowercasestring (qa.name.getD [])
    qa.readable && namedSafely env x qa name &&
      (setOr qa.defaultQueue 0 == 0 || othersDirty x name)
  | (_, .client _ (.modQueue qm)) =>
    qm.readable && (qm.defaultQueue == unset32 || othersDirty x (qm.name.getD []))
  | (_, .cleanupQueues _) =>
    x.server.defaultQueue.all fun b ↦ !(x.server.queueTable.get? b).any fun q ↦ decide q.Removable
  | (_, .saveFinish failed) => !failed
  | _ => true

/-! ### The invariant -/

/-- What the files have to do with a queue. -/
def Queue.filed (q : Queue) : Str × Option Str × Str × Bool := (q.name, q.desc, q.host, q.obj.dirty)

/-- The queues are about to be saved or have the files they should have: a marked file belongs to
the default queue or to a queue that is dirty, and the default queue is dirty or has a marked
file. -/
structure DefaultMarked (c : Core) (d : Disk) : Prop where
  unique : ∀ a b q r, c.queueTable.get? a = some q → c.queueTable.get? b = some r →
    q.name = r.name → a = b
  plain : ∀ b q, c.queueTable.get? b = some q → q.Plain
  files : ∀ f ∈ d.queues, ∃ now isDefault q, q.Plain ∧ f = (q.name, stateSaveQueue now isDefault q)
  owned : ∀ f ∈ d.queues, marked f = true → ∃ b q, c.queueTable.get? b = some q ∧ q.name = f.1 ∧
    (c.defaultQueue = some b ∨ q.obj.dirty = true)
  default : ∀ b, c.defaultQueue = some b → ∃ q, c.queueTable.get? b = some q ∧
    (q.obj.dirty = true ∨ ∃ f ∈ d.queues, f.1 = q.name ∧ marked f = true)

/-- The default queue and what concerns the files are the same. -/
structure SameFiled (c c' : Core) : Prop where
  defaultQueue : c'.defaultQueue = c.defaultQueue
  queues : ∀ b, (c'.queueTable.get? b).map Queue.filed = (c.queueTable.get? b).map Queue.filed

theorem SameFiled.symm (h : SameFiled c c') : SameFiled c' c :=
  ⟨h.1.symm, fun b ↦ (h.2 b).symm⟩

theorem SameFiled.get (h : SameFiled c c') {b : Addr}
    (hq : c.queueTable.get? b = some q) :
    ∃ q', c'.queueTable.get? b = some q' ∧ q'.filed = q.filed := by
  have hb := h.queues b
  rw [hq] at hb
  exact map_eq_some_iff.mp hb

theorem Queue.Plain.congr (h : q'.filed = q.filed) (hq : q.Plain) : q'.Plain := by
  obtain ⟨hname, hdesc, hhost, -⟩ : q'.name = q.name ∧ q'.desc = q.desc ∧ q'.host = q.host ∧
      q'.obj.dirty = q.obj.dirty := by
    simpa [Queue.filed] using h
  exact ⟨hname ▸ hq.name, hdesc ▸ hq.desc, hhost ▸ hq.host, hname ▸ hq.visible⟩

theorem DefaultMarked.congr {d : Disk} (hs : SameFiled c c') (h : DefaultMarked c d) :
    DefaultMarked c' d where
  unique a b q r hq hr hname := by
    obtain ⟨q₀, hq₀, hfq⟩ := hs.symm.get hq
    obtain ⟨r₀, hr₀, hfr⟩ := hs.symm.get hr
    refine h.unique a b q₀ r₀ hq₀ hr₀ ?_
    exact (congrArg Prod.fst hfq).trans (hname.trans (congrArg Prod.fst hfr).symm)
  plain b q hq := by
    obtain ⟨q₀, hq₀, hfq⟩ := hs.symm.get hq
    exact (h.plain b q₀ hq₀).congr hfq.symm
  files := h.files
  owned f hf hmark := by
    obtain ⟨b, q, hq, hname, hwhy⟩ := h.owned f hf hmark
    obtain ⟨q', hq', hfq⟩ := hs.get hq
    refine ⟨b, q', hq', (congrArg Prod.fst hfq).trans hname, ?_⟩
    have hdirty : q'.obj.dirty = q.obj.dirty := congrArg (fun x ↦ x.2.2.2) hfq
    rw [hs.defaultQueue, hdirty]
    exact hwhy
  default b hb := by
    obtain ⟨q, hq, hwhy⟩ := h.default b (hs.defaultQueue ▸ hb)
    obtain ⟨q', hq', hfq⟩ := hs.get hq
    have hdirty : q'.obj.dirty = q.obj.dirty := congrArg (fun x ↦ x.2.2.2) hfq
    have hname : q'.name = q.name := congrArg Prod.fst hfq
    refine ⟨q', hq', ?_⟩
    rw [hdirty, hname]
    exact hwhy

/-- **The invariant is enough**: once no queue is dirty, the marked file is that of the default
queue. -/
theorem DefaultMarked.survives {config : Config} {hosts : List Str}
    (hacl : ∀ acl ∈ config.queueAcls, acl.overruns = false)
    (h : DefaultMarked x.server.toCore x.disk) : DefaultSurvives config hosts x := by
  intro _ hclean env
  have hmem {f : Str × Str} : f ∈ globQueues x.disk.queues ↔
      f ∈ x.disk.queues ∧ (queueFileName f.1).head? ≠ some '.' := by
    rw [globQueues, (perm_insertionSort _ _).mem_iff, mem_filter, bne_iff_ne]
  have hload :
      ∀ f ∈ globQueues x.disk.queues, ∃ q, stateLoadQueue (queueFileName f.1) f.2 = .ok q := by
    intro f hf
    obtain ⟨now, isDefault, q, hq, rfl⟩ := h.files f (hmem.mp hf).1
    obtain ⟨q', hq', -⟩ := stateLoadQueue_plain now isDefault hq
    exact ⟨q', hq'⟩
  have howner : ∀ f ∈ x.disk.queues, marked f = true → ∃ b q, x.server.defaultQueue = some b ∧
      x.server.queueTable.get? b = some q ∧ q.name = f.1 := by
    intro f hf hmark
    obtain ⟨b, q, hq, hname, hb | hdirty⟩ := h.owned f hf hmark
    · exact ⟨b, q, hb, hq, hname⟩
    · exact nomatch (hclean b q hq).symm.trans hdirty
  cases hdefault : x.server.defaultQueue with
  | none =>
    have hnone : ∀ f ∈ globQueues x.disk.queues, ¬marked f = true := by
      intro f hf hmark
      obtain ⟨b, -, hb, -⟩ := howner f (hmem.mp hf).1 hmark
      exact nomatch hdefault.symm.trans hb
    obtain ⟨s', hs', hname⟩ :=
      each_load_default env (n := []) hload (fun f hf hmark ↦ absurd hmark (hnone f hf))
      (s := Server.initial config hosts) (fun b hb ↦ nomatch hb) hacl
    refine ⟨s', hs', hname.trans ?_⟩
    rw [if_neg fun ⟨f, hf, hmark⟩ ↦ hnone f hf hmark, Server.defaultName, Server.defaultName,
      hdefault]
    rfl
  | some b =>
    obtain ⟨q, hq, hdirty | ⟨f, hf, hfname, hmark⟩⟩ := h.default b hdefault
    · exact nomatch (hclean b q hq).symm.trans hdirty
    have hone : ∀ g ∈ globQueues x.disk.queues, marked g = true → g.1 = q.name := by
      intro g hg hgmark
      obtain ⟨b', q', hb', hq', hname⟩ := howner g (hmem.mp hg).1 hgmark
      obtain rfl := mem_unique hdefault hb'
      obtain rfl := mem_unique hq hq'
      exact hname.symm
    obtain ⟨s', hs', hname⟩ := each_load_default env hload hone
      (s := Server.initial config hosts) (fun b hb ↦ nomatch hb) hacl
    refine ⟨s', hs', hname.trans ?_⟩
    have hvisible : f ∈ globQueues x.disk.queues := hmem.mpr ⟨hf, hfname ▸ (h.plain b q hq).visible⟩
    rw [if_pos ⟨f, hvisible, hmark⟩, Server.defaultName, hdefault, map_some, hq]
    rfl

/-! ### Events that leave the files alone -/

/-- The event may write files, or change what they should say. -/
def Event.files : Event → Bool
  | .client _ (.addQueue _) => true
  | .client _ (.modQueue _) => true
  | .cleanupQueues _ => true
  | .saveStart _ => true
  | _ => false

theorem Shift.sameFiled {a : Addr} {j j' : Job} {k : Cost} (hm : Shift a j j' k c c') :
    SameFiled c c' := by
  refine ⟨hm.defaultQueue, fun b ↦ ?_⟩
  have hb := hm.queues b
  generalize c.queueTable.get? b = o at hb
  generalize c'.queueTable.get? b = o' at hb
  cases hb with
  | none => rfl
  | some hq =>
    rw [map_some, map_some, hq.rest]
    rfl

/-- An edit of a queue that concerns no file. -/
theorem SameFiled.edit {c : Core} {b : Addr} (hq : c.queueTable.get? b = some q)
    (h : q'.filed = q.filed) :
    SameFiled c { c with queueTable := c.queueTable.modify b fun _ ↦ q' } := by
  refine ⟨rfl, fun a ↦ ?_⟩
  show ((c.queueTable.modify b fun _ ↦ q').get? a).map _ = _
  rw [get?_modify]
  split
  · next ha => rw [ha, hq, map_some, map_some, map_some, h]
  · rfl

theorem Allowed.sameFiled {env : Env} {s : Server} {e : Event} {l : Label}
    (he : e.files = false) (hfailed : e ≠ .saveFinish true) (h : Allowed env s e c l)
    (hm : Move l c c') : SameFiled c c' := by
  cases l with
  | shift => exact Shift.sameFiled hm
  | addJob j j' k =>
    have hm := hm.added
    exact ⟨hm.sameFiled.1, hm.sameFiled.2⟩
  | addRes | setFlush =>
    obtain rfl := hm
    exact ⟨rfl, fun _ ↦ rfl⟩
  | removeJob | reuseRes | editRes | removeRes =>
    obtain ⟨-, rfl⟩ := hm
    exact ⟨rfl, fun _ ↦ rfl⟩
  | addQueue q | reuseQueue b q q' =>
    cases h with
    | job _ hl | res _ hl | agent hl => cases hl
    | queue _ hl => cases hl; exact nomatch he
  | removeQueue b q =>
    cases h with
    | job _ hl | res _ hl | agent hl => cases hl
    | queue _ hl => cases hl; exact nomatch he
    | cleanQueue => exact nomatch he
  | setDefault b =>
    cases h with
    | job _ hl | res _ hl | agent hl => cases hl
    | queue _ hl => cases hl <;> exact nomatch he
  | editQueue b q q' =>
    obtain ⟨hq, rfl⟩ := hm
    refine .edit hq ?_
    cases h with
    | job _ hl | res _ hl => cases hl
    | queue _ hl =>
      cases hl with
      | touchNew | modify | touch => exact nomatch he
      | delete => rfl
    | agent hl => cases hl; rfl
    | unlink => rfl
    | captureQueue => exact nomatch he
    | @reapQueue failed =>
      cases failed with
      | true => exact absurd rfl hfailed
      | false => simp [Queue.filed, Queue.reaped]

/-! ### One queue is written -/

section

variable {c c' : Core} {d d' : Disk}

/-- A queue is put in place of one of its name, or is new, and is dirty if it matters. -/
theorem DefaultMarked.write {b : Addr} (h : DefaultMarked c d)
    (hget : ∀ a, c'.queueTable.get? a = if a = b then some q' else c.queueTable.get? a)
    (hplain : q'.Plain) (hname : (∃ q, c.queueTable.get? b = some q ∧ q.name = q'.name) ∨
      c.queueTable.get? b = none ∧ ∀ a q, c.queueTable.get? a = some q → q.name ≠ q'.name)
    (hdirty : q'.obj.dirty = true ∨ c'.defaultQueue = c.defaultQueue ∧
      ∃ q, c.queueTable.get? b = some q ∧ q.obj.dirty = q'.obj.dirty)
    (hdefault : c'.defaultQueue = c.defaultQueue ∨ c'.defaultQueue = some b ∧
      ∀ f ∈ d.queues, marked f = true → f.1 = q'.name ∨
        ∃ a r, c.queueTable.get? a = some r ∧ r.name = f.1 ∧ r.obj.dirty = true) :
    DefaultMarked c' d := by
  have hself : c'.queueTable.get? b = some q' := by rw [hget, if_pos rfl]
  have hother {a : Addr} (ha : a ≠ b) : c'.queueTable.get? a = c.queueTable.get? a := by
    rw [hget, if_neg ha]
  have hsame {q : Queue} (hq : c.queueTable.get? b = some q) : q.name = q'.name := by
    rcases hname with ⟨q₀, hq₀, hn⟩ | ⟨hnone, -⟩
    · rwa [← mem_unique hq₀ hq]
    · exact nomatch hnone.symm.trans hq
  have hkeeps {q : Queue} (hq : c.queueTable.get? b = some q) (hd : q.obj.dirty = true) :
      q'.obj.dirty = true := by
    rcases hdirty with hd' | ⟨-, q₀, hq₀, hd'⟩
    · exact hd'
    · rw [← hd', mem_unique hq₀ hq, hd]
  -- No other queue has the name.
  have hone {a : Addr} {r : Queue} (ha : a ≠ b) (hr : c.queueTable.get? a = some r) :
      r.name ≠ q'.name := by
    rcases hname with ⟨q₀, hq₀, hn⟩ | ⟨-, hnew⟩
    · exact fun he ↦ ha (h.unique a b r q₀ hr hq₀ (he.trans hn.symm))
    · exact hnew a r hr
  refine ⟨fun a a' r r' hr hr' hn ↦ ?_, fun a r hr ↦ ?_, h.files, fun f hf hmark ↦ ?_,
    fun a ha ↦ ?_⟩
  · by_cases hab : a = b
    · by_cases hab' : a' = b
      · exact hab.trans hab'.symm
      · obtain rfl := some.inj (hself.symm.trans (hab ▸ hr))
        exact absurd hn.symm (hone hab' (hother hab' ▸ hr'))
    · by_cases hab' : a' = b
      · obtain rfl := some.inj (hself.symm.trans (hab' ▸ hr'))
        exact absurd hn (hone hab (hother hab ▸ hr))
      · exact h.unique a a' r r' (hother hab ▸ hr) (hother hab' ▸ hr') hn
  · by_cases hab : a = b
    · obtain rfl := some.inj (hself.symm.trans (hab ▸ hr))
      exact hplain
    · exact h.plain a r (hother hab ▸ hr)
  · rcases hdefault with hdef | ⟨hdef, hothers⟩
    · obtain ⟨a, r, hr, hn, hwhy⟩ := h.owned f hf hmark
      by_cases hab : a = b
      · subst hab
        refine ⟨a, q', hself, (hsame hr).symm.trans hn, ?_⟩
        rw [hdef]
        exact hwhy.imp_right (hkeeps hr)
      · exact ⟨a, r, (hother hab).trans hr, hn, hdef ▸ hwhy⟩
    · rcases hothers f hf hmark with hn | ⟨a, r, hr, hn, hd⟩
      · exact ⟨b, q', hself, hn.symm, .inl hdef⟩
      · by_cases hab : a = b
        · subst hab
          exact ⟨a, q', hself, (hsame hr).symm.trans hn, .inl hdef⟩
        · exact ⟨a, r, (hother hab).trans hr, hn, .inr hd⟩
  · have hcases : (a = b ∧ q'.obj.dirty = true) ∨ c.defaultQueue = some a := by
      rcases hdefault with hdef | ⟨hdef, -⟩
      · exact .inr (hdef.symm.trans ha)
      · rcases hdirty with hd | ⟨hdef', -⟩
        · exact .inl ⟨(mem_unique hdef ha).symm, hd⟩
        · exact .inr (hdef'.symm.trans ha)
    rcases hcases with ⟨rfl, hd⟩ | hold
    · exact ⟨q', hself, .inl hd⟩
    · obtain ⟨r, hr, hwhy⟩ := h.default a hold
      by_cases hab : a = b
      · subst hab
        refine ⟨q', hself, ?_⟩
        rw [← hsame hr]
        exact hwhy.imp_left (hkeeps hr)
      · exact ⟨r, (hother hab).trans hr, hwhy⟩

/-- Queues are freed, none of them the default queue or one that still has a marked file. -/
theorem DefaultMarked.thin (h : DefaultMarked c d) (hdef : c'.defaultQueue = c.defaultQueue)
    (hold : ∀ a q, c'.queueTable.get? a = some q → c.queueTable.get? a = some q)
    (hsub : ∀ f ∈ d'.queues, f ∈ d.queues)
    (hgone : ∀ a q, c.queueTable.get? a = some q → c'.queueTable.get? a = some q ∨
      ∀ f ∈ d'.queues, marked f = true → f.1 ≠ q.name)
    (hkept : ∀ b q, c.defaultQueue = some b → c.queueTable.get? b = some q →
      c'.queueTable.get? b = some q ∧ ∀ f ∈ d.queues, f.1 = q.name → f ∈ d'.queues) :
    DefaultMarked c' d' := by
  refine ⟨fun a a' r r' hr hr' hn ↦ h.unique a a' r r' (hold a r hr) (hold a' r' hr') hn,
    fun a r hr ↦ h.plain a r (hold a r hr), fun f hf ↦ h.files f (hsub f hf), fun f hf hmark ↦ ?_,
    fun b hb ↦ ?_⟩
  · obtain ⟨a, q, hq, hn, hwhy⟩ := h.owned f (hsub f hf) hmark
    rcases hgone a q hq with hq' | hnone
    · exact ⟨a, q, hq', hn, hdef ▸ hwhy⟩
    · exact absurd hn.symm (hnone f hf hmark)
  · obtain ⟨q, hq, hwhy⟩ := h.default b (hdef ▸ hb)
    obtain ⟨hq', hfiles⟩ := hkept b q (hdef ▸ hb) hq
    refine ⟨q, hq', hwhy.imp_right ?_⟩
    rintro ⟨f, hf, hn, hmark⟩
    exact ⟨f, hfiles f hf hn, hn, hmark⟩

/-- The file that a save writes for a queue. -/
def Queue.file (q : Queue) (now : ℤ) (isDefault : Bool) : Str × Str :=
  (q.name, stateSaveQueue now isDefault q)

/-- The queue files after a save: those of the captured queues, and the others as they were. -/
theorem mem_saved_queues (d : Disk) (now : ℤ) {s : Server} (f : Flush) {file : Str × Str}
    (hunique : ∀ a b q r, s.queueTable.get? a = some q → s.queueTable.get? b = some r →
      q.name = r.name → a = b) :
    file ∈ (d.saved now s f).queues ↔ (∃ b ∈ f.queues, ∃ q, s.queueTable.get? b = some q ∧
        file = q.file now (s.defaultQueue == some b)) ∨
      file ∈ d.queues ∧ ∀ b ∈ f.queues, ∀ q, s.queueTable.get? b = some q → file.1 ≠ q.name := by
  have hsame {α : Type} {g : Disk → α → Disk} (hg : ∀ d v, (g d v).queues = d.queues) (l : List α)
      (d : Disk) : (l.foldl g d).queues = d.queues := by
    induction l generalizing d with
    | nil => rfl
    | cons v l ih => exact (ih _).trans (hg d v)
  unfold Disk.saved
  dsimp only
  rw [hsame (g := Disk.saveResource) fun _ _ ↦ rfl,
    ← hsame (g := Disk.saveJob) (fun _ _ ↦ rfl) (f.jobs.filterMap s.jobTable.get?) d]
  generalize (f.jobs.filterMap s.jobTable.get?).foldl Disk.saveJob d = d₁
  generalize f.queues = l
  induction l generalizing d₁ with
  | nil => simp
  | cons b l ih =>
    rw [foldl_cons]
    refine (ih _).trans ?_
    cases hb : s.queueTable.get? b with
    | none => simp [hb]
    | some q =>
      have hmem : file ∈ (d₁.saveQueue now (s.defaultQueue == some b) q).queues ↔
          file = q.file now (s.defaultQueue == some b) ∨ file ∈ d₁.queues ∧ file.1 ≠ q.name := by
        simp [Disk.saveQueue, Queue.file]
      simp only [map_some, getD_some, hmem, exists_mem_cons_iff,
        forall_mem_cons, hb, Option.some.injEq, exists_eq_left', forall_eq']
      constructor
      · rintro (hl | ⟨hfile | ⟨hf, hne⟩, hl⟩)
        · exact .inl (.inr hl)
        · exact .inl (.inl hfile)
        · exact .inr ⟨hf, hne, hl⟩
      · rintro ((hfile | hl) | ⟨hf, hne, hl⟩)
        · -- A later queue with the name of this one is this one.
          by_cases hlater : b ∈ l
          · exact .inl ⟨b, hlater, q, hb, hfile⟩
          · refine .inr ⟨.inl hfile, fun b' hb' r hr hn ↦ ?_⟩
            rw [hfile] at hn
            exact hlater (hunique b b' q r hb hr hn ▸ hb')
        · exact .inl hl
        · exact .inr ⟨.inr ⟨hf, hne⟩, hl⟩

/-- **A save** makes the marks what they should be. -/
theorem DefaultMarked.save {s s' : Server} (h : DefaultMarked s.toCore d)
    (hdef : s'.defaultQueue = s.defaultQueue)
    (hget : ∀ b, s'.queueTable.get? b =
      if b ∈ s.toFlush.queues then (s.queueTable.get? b).map Queue.captured else
        s.queueTable.get? b) :
    DefaultMarked s'.toCore (d.saved now s s.toFlush) := by
  have hmem {file : Str × Str} := @mem_saved_queues d now s s.toFlush file h.unique
  -- A queue is as it was but for the dirty flag.
  have hback {b : Addr} {q' : Queue} (hq' : s'.queueTable.get? b = some q') :
      ∃ q, s.queueTable.get? b = some q ∧ q'.name = q.name ∧ q'.desc = q.desc ∧
      q'.host = q.host := by
    rw [hget] at hq'
    split at hq'
    · obtain ⟨q, hq, rfl⟩ := map_eq_some_iff.mp hq'
      exact ⟨q, hq, rfl, rfl, rfl⟩
    · exact ⟨q', hq', rfl, rfl, rfl⟩
  have hforth {b : Addr} {q : Queue} (hq : s.queueTable.get? b = some q) :
      ∃ q', s'.queueTable.get? b = some q' ∧ q'.name = q.name ∧
        (b ∉ s.toFlush.queues → q'.obj.dirty = q.obj.dirty) := by
    rw [hget]
    split
    · next hb => exact ⟨q.captured, by rw [hq]; rfl, rfl, fun hnot ↦ absurd hb hnot⟩
    · exact ⟨q, hq, rfl, fun _ ↦ rfl⟩
  refine ⟨fun a b q r hq hr hn ↦ ?_, fun b q hq ↦ ?_, fun f hf ↦ ?_, fun f hf hmark ↦ ?_,
    fun b hb ↦ ?_⟩
  · obtain ⟨q₀, hq₀, hnq, -⟩ := hback hq
    obtain ⟨r₀, hr₀, hnr, -⟩ := hback hr
    exact h.unique a b q₀ r₀ hq₀ hr₀ (hnq.symm.trans (hn.trans hnr))
  · obtain ⟨q₀, hq₀, hn, hdesc, hhost⟩ := hback hq
    have hplain := h.plain b q₀ hq₀
    exact ⟨hn ▸ hplain.name, hdesc ▸ hplain.desc, hhost ▸ hplain.host, hn ▸ hplain.visible⟩
  · rcases hmem.mp hf with ⟨b, -, q, hq, rfl⟩ | ⟨hold, -⟩
    · exact ⟨now, _, q, h.plain b q hq, rfl⟩
    · exact h.files f hold
  · rcases hmem.mp hf with ⟨b, -, q, hq, rfl⟩ | ⟨hold, hnot⟩
    · have hb : (s.defaultQueue == some b) = true :=
        (marked_saved (h.plain b q hq)).symm.trans hmark
      obtain ⟨q', hq', hn, -⟩ := hforth hq
      exact ⟨b, q', hq', hn, .inl (hdef.trans (eq_of_beq hb))⟩
    · obtain ⟨b, q, hq, hn, hwhy⟩ := h.owned f hold hmark
      obtain ⟨q', hq', hn', hd⟩ := hforth hq
      have hb : b ∉ s.toFlush.queues := fun hb ↦ hnot b hb q hq hn.symm
      refine ⟨b, q', hq', hn'.trans hn, ?_⟩
      rw [hdef, hd hb]
      exact hwhy
  · have hb₀ : s.defaultQueue = some b := hdef.symm.trans hb
    obtain ⟨q, hq, hwhy⟩ := h.default b hb₀
    obtain ⟨q', hq', hn, hd⟩ := hforth hq
    refine ⟨q', hq', ?_⟩
    by_cases hflush : b ∈ s.toFlush.queues
    · refine .inr ⟨q.file now (s.defaultQueue == some b), hmem.mpr (.inl ⟨b, hflush, q, hq, rfl⟩),
        hn.symm, ?_⟩
      rw [Queue.file, marked_saved (h.plain b q hq), hb₀]
      exact beq_self_eq_true _
    · rw [hd hflush]
      refine hwhy.imp_right ?_
      rintro ⟨f, hf, hfn, hmark⟩
      refine ⟨f, hmem.mpr (.inr ⟨hf, fun b' hb' r hr he ↦ ?_⟩), hfn.trans hn.symm, hmark⟩
      exact hflush (h.unique b' b r q hr hq (he.symm.trans hfn) ▸ hb')

end

/-! ### The commands on queues -/

section

variable {env : Env} {s s' : Server} {reply : Reply} {cl : Client}

theorem newline_notMem_of_checkName (h : checkName name = true) : '\n' ∉ name :=
  fun hmem ↦ absurd (List.all_eq_true.mp h _ hmem) (by decide)

theorem QueueRequest.readable_iff {qr : QueueRequest} : qr.readable = true ↔
    (∀ t, qr.desc = some t → '\n' ∉ t) ∧ ∀ t, qr.node = some t → '\n' ∉ t := by
  simp only [readable, Bool.and_eq_true, Option.all_eq_true, Bool.not_eq_true', contains_eq_mem,
    decide_eq_false_iff_not]

theorem othersDirty_iff : othersDirty x name = true ↔
    ∀ f ∈ x.disk.queues, marked f = true → f.1 = name ∨
      ∃ a r, x.server.queueTable.get? a = some r ∧ r.name = f.1 ∧ r.obj.dirty = true := by
  simp only [othersDirty, List.all_eq_true, Bool.or_eq_true, beq_iff_eq, Bool.not_eq_true',
    List.any_eq_true, Bool.and_eq_true]
  refine forall₂_congr fun f hf ↦ ?_
  have hrows : (∃ r ∈ x.server.queueTable.rows, r.2.name = f.1 ∧ r.2.obj.dirty = true) ↔
      ∃ a r, x.server.queueTable.get? a = some r ∧ r.name = f.1 ∧ r.obj.dirty = true := by
    simp only [Prod.exists, mem_rows_iff]
  rw [hrows]
  cases hmark : marked f <;> simp

theorem findQueue_some {t : Tables} {b : Addr} {q : Queue} (h : t.findQueue name = some (b, q)) :
    t.queueTable.get? b = some q ∧ q.name = name := by
  obtain ⟨hget, hname⟩ := Table.find?_some h
  exact ⟨hget, by simpa using hname⟩

variable {d : Disk}

/-- **A request for a new queue** keeps the invariant. -/
theorem DefaultMarked.addQueue {c : Option Client} {qa : QueueRequest}
    (h : DefaultMarked s.toCore d)
    (hgood : defaultKept { server := s, disk := d } (env, .client cl (.addQueue qa)) = true)
    (hrun : commandAddQueue env c qa s = .ok (reply, s')) : DefaultMarked s'.toCore d := by
  cases commandAddQueue_post hrun with
  | refused => exact h
  | @dropped b q _ hdrops =>
    obtain ⟨name, hname, -, hfound⟩ := hdrops.named
    simp only [defaultKept, namedSafely, hname, getD_some, Bool.and_eq_true] at hgood
    obtain ⟨⟨-, -, hlost⟩, -⟩ := hgood
    obtain ⟨hq, hqname⟩ := findQueue_some hfound
    rw [hdrops.agent, hfound] at hlost
    obtain ⟨hdef, hmarks⟩ : s.defaultQueue ≠ some b ∧
        ∀ f ∈ d.queues, f.1 = lowercasestring name → marked f = false := by
      simpa using hlost
    refine h.thin rfl (fun a r hr ↦ (get?_erase_some hr).2) (fun f hf ↦ hf) (fun a r hr ↦ ?_)
      fun b' r hb' hr ↦ ⟨?_, fun f hf _ ↦ hf⟩
    · by_cases ha : a = b
      · subst ha
        obtain rfl := mem_unique hq hr
        refine .inr fun f hf hmark hn ↦ ?_
        exact nomatch hmark.symm.trans (hmarks f hf (hn.trans hqname))
      · exact .inl ((get?_erase _ _ _).trans ((if_neg ha).trans hr))
    · have hne : b' ≠ b := fun he ↦ hdef (he ▸ hb')
      exact (get?_erase _ _ _).trans ((if_neg hne).trans hr)
  | @added name old g b _ _ _ hname hcheck hfound _ hadd _ =>
    simp only [defaultKept, namedSafely, hname, getD_some, Bool.and_eq_true, bne_iff_ne] at hgood
    obtain ⟨⟨hread, hvisible, -⟩, hothers⟩ := hgood
    obtain ⟨hdesc, hnode⟩ := QueueRequest.readable_iff.mp hread
    obtain ⟨hb, hget, hdef, -⟩ := addQueue_ok hadd
    refine h.write hget ⟨newline_notMem_of_checkName hcheck, hdesc, ?_, hvisible⟩ ?_ (.inl ?_) ?_
    · show '\n' ∉ qa.node.getD "localhost".toList
      cases hn : qa.node with
      | none => decide
      | some t => exact hnode t hn
    · cases old with
      | none =>
        refine .inr ⟨?_, fun a r hr ↦ ?_⟩
        · rw [hb]
          cases hnext : s.queueTable.get? s.queueTable.next with
          | none => exact hnext
          | some r => exact absurd (lt_next hnext) (lt_irrefl _)
        · have hother : r.name ≠ lowercasestring name := by simpa using find?_none hfound hr
          exact hother
      | some r =>
        obtain ⟨hq, hqname⟩ := findQueue_some hfound
        exact .inl ⟨r.2, hb ▸ hq, hqname⟩
    · rfl
    · rw [hdef]
      by_cases hd : setOr qa.defaultQueue 0 = 0
      · exact .inl (if_neg (not_not.mpr hd))
      · refine .inr ⟨if_pos hd, ?_⟩
        have hothers : othersDirty { server := s, disk := d } (lowercasestring name) = true := by
          simpa [hd] using hothers
        exact othersDirty_iff.mp hothers

/-- **A request to modify a queue** keeps the invariant. -/
theorem DefaultMarked.modQueue {c : Option Client} (h : DefaultMarked s.toCore d)
    (hgood : defaultKept { server := s, disk := d } (env, .client cl (.modQueue qm)) = true)
    (hrun : commandModQueue env c qm s = .ok (reply, s')) : DefaultMarked s'.toCore d := by
  cases commandModQueue_post hrun with
  | refused => exact h
  | @applied name b q _ agent _ _ hname hfound _ happly =>
  simp only [defaultKept, hname, getD_some, Bool.and_eq_true] at hgood
  obtain ⟨hread, hothers⟩ := hgood
  obtain ⟨hdesc, hnode⟩ := QueueRequest.readable_iff.mp hread
  obtain ⟨hq, hqname⟩ := findQueue_some hfound
  obtain ⟨-, -, htable, hdef⟩ := applyQueueMod_ok happly
  have hplain := h.plain b q hq
  have hget (a : Addr) : s'.queueTable.get? a =
      if a = b then some { qm.edit agent q with obj := q.obj.updated (qm.dirty q) }
      else s.queueTable.get? a := by
    rw [htable, get?_modify]
    split
    · next ha => rw [ha, hq, map_some]
    · rfl
  refine h.write hget ⟨hplain.name, fun t ht ↦ ?_, ?_, hplain.visible⟩ (.inl ⟨q, hq, rfl⟩) ?_ ?_
  · have ht : (if qm.desc.isSome then qm.desc else q.desc) = some t := ht
    split at ht
    · exact hdesc t ht
    · exact hplain.desc t ht
  · show '\n' ∉ qm.node.getD q.host
    cases hn : qm.node with
    | none => exact hplain.host
    | some t => exact hnode t hn
  · cases hdirty : qm.dirty q with
    | true => exact .inl (Bool.or_true _)
    | false =>
      have hunset : qm.defaultQueue = unset32 := by
        simp only [QueueRequest.dirty, Bool.or_eq_false_iff, bne_eq_false_iff_eq] at hdirty
        exact hdirty.1.2
      refine .inr ⟨?_, q, hq, (Bool.or_false _).symm⟩
      rw [hdef, if_neg (not_not.mpr hunset)]
  · rw [hdef]
    by_cases hd : qm.defaultQueue = unset32
    · exact .inl (if_neg (not_not.mpr hd))
    · refine .inr ⟨if_pos hd, ?_⟩
      have hothers : othersDirty { server := s, disk := d } name = true := by
        simpa [hd] using hothers
      rw [← hqname] at hothers
      exact othersDirty_iff.mp hothers

end

/-! ### Clean-up -/

/-- What `cleanupQueues` leaves of the queues. -/
structure QueuesCleaned (s : Server) (c : Core) : Prop where
  defaultQueue : c.defaultQueue = s.defaultQueue
  queues : ∀ a, c.queueTable.get? a = s.queueTable.get? a ∨
    c.queueTable.get? a = none ∧ ∃ q, s.queueTable.get? a = some q ∧ q.Removable

theorem queuesCleaned_of_step {env : Env} {n : ℕ} (hrec : s.recovery = none)
    (h : handle env (.cleanupQueues n) s = .ok ((), s')) : QueuesCleaned s s'.toCore := by
  refine (handle_path hrec h).invariant (I := QueuesCleaned s) (fun hc hl hm ↦ ?_)
    ⟨rfl, fun _ ↦ .inl rfl⟩
  cases hl with
  | @cleanQueue _ _ b q hq hrem =>
    obtain ⟨-, rfl⟩ := hm
    refine ⟨hc.defaultQueue, fun a ↦ ?_⟩
    show (Table.erase _ b).get? a = _ ∨ (Table.erase _ b).get? a = none ∧ _
    rw [get?_erase]
    split
    · next ha => exact .inr ⟨rfl, q, ha ▸ hq, hrem⟩
    · exact hc.queues a

theorem DefaultMarked.cleanupQueues {env : Env} {n : ℕ} {d : Disk}
    (hrec : s.recovery = none) (h : DefaultMarked s.toCore d)
    (hgood : defaultKept { server := s, disk := d } (env, .cleanupQueues n) = true)
    (hstep : handle env (.cleanupQueues n) s = .ok ((), s')) :
    DefaultMarked s'.toCore (d.after env.now (.cleanupQueues n) s s') := by
  obtain ⟨hdef, hqueues⟩ := queuesCleaned_of_step hrec hstep
  have hstays {b : Addr} {q : Queue} (hb : s.defaultQueue = some b)
      (hq : s.queueTable.get? b = some q) : s'.queueTable.get? b = some q := by
    rcases hqueues b with hsame | ⟨-, q', hq', hrem⟩
    · exact hsame.trans hq
    · rw [defaultKept, hb] at hgood
      simp [hq', hrem] at hgood
  have hfreed {q : Queue} : q ∈ freed s.queueTable s'.queueTable ↔
      ∃ a, s.queueTable.get? a = some q ∧ s'.queueTable.get? a = none := by
    simp only [freed, List.mem_map, mem_filter, Prod.exists, mem_rows_iff, isNone_iff_eq_none]
    constructor
    · rintro ⟨a, v, ⟨hv, hnone⟩, rfl⟩
      exact ⟨a, hv, hnone⟩
    · rintro ⟨a, hq, hnone⟩
      exact ⟨a, q, ⟨hq, hnone⟩, rfl⟩
  have hmem {f : Str × Str} : f ∈ (d.after env.now (.cleanupQueues n) s s').queues ↔
      f ∈ d.queues ∧ ∀ a q, s.queueTable.get? a = some q → s'.queueTable.get? a = none →
        q.name ≠ f.1 := by
    simp only [Disk.after, mem_filter, List.all_eq_true, bne_iff_ne, hfreed]
    refine and_congr_right fun _ ↦ ⟨fun hall a q hq hnone ↦ hall q ⟨a, hq, hnone⟩, ?_⟩
    rintro hall q ⟨a, hq, hnone⟩
    exact hall a q hq hnone
  refine h.thin hdef (fun a q hq ↦ ?_) (fun f hf ↦ (hmem.mp hf).1) (fun a q hq ↦ ?_)
    fun b q hb hq ↦ ⟨hstays hb hq, fun f hf hn ↦ hmem.mpr ⟨hf, fun a r hr hnone hname ↦ ?_⟩⟩
  · rcases hqueues a with hsame | ⟨hnone, -⟩
    · exact hsame.symm.trans hq
    · exact nomatch hnone.symm.trans hq
  · rcases hqueues a with hsame | ⟨hnone, -⟩
    · exact .inl (hsame.trans hq)
    · exact .inr fun f hf _ hn ↦ (hmem.mp hf).2 a q hq hnone hn.symm
  · obtain rfl := h.unique a b r q hr hq (hname.trans hn)
    exact nomatch hnone.symm.trans (hstays hb hq)

/-! ### Runs -/

theorem DefaultMarked.files_congr {c : Core} {d d' : Disk} (hq : d'.queues = d.queues)
    (h : DefaultMarked c d) : DefaultMarked c d' :=
  ⟨h.unique, h.plain, hq ▸ h.files, hq ▸ h.owned, hq ▸ h.default⟩

/-- The queue files are written by saves and removed by the clean-up of queues only. -/
theorem Disk.after_queues {e : Event} (he : e.files = false) (d : Disk) (now : ℤ) (s s' : Server) :
    (d.after now e s s').queues = d.queues := by
  cases e with
  | saveStart | cleanupQueues => exact nomatch he
  | _ => rfl

/-- **Every event that keeps the default queue keeps the invariant.** -/
theorem DefaultMarked.step {x' : OnDisk} {e : Env × Event} (hrec : x.server.recovery = none)
    (h : DefaultMarked x.server.toCore x.disk) (hgood : defaultKept x e = true)
    (hstep : diskStep x e = .ok x') : DefaultMarked x'.server.toCore x'.disk := by
  obtain ⟨hserver, hdisk⟩ := diskStep_ok hstep
  rw [hdisk]
  obtain ⟨env, e⟩ := e
  have hquiet (he : e.files = false) (hfailed : e ≠ .saveFinish true) :
      DefaultMarked x'.server.toCore (x.disk.after env.now e x.server x'.server) := by
    refine DefaultMarked.files_congr (Disk.after_queues he ..) ?_
    exact (handle_path hrec hserver).invariant (I := fun c ↦ DefaultMarked c x.disk)
      (fun hc hl hm ↦ hc.congr (hl.sameFiled he hfailed hm)) h
  cases e with
  | client cl cmd =>
    obtain ⟨reply, -, hrun⟩ := bind_pure_ok hserver
    cases cmd with
    | addQueue qa =>
      refine DefaultMarked.files_congr (d := x.disk) rfl ?_
      obtain ⟨heq, -⟩ | ⟨c', -, -, hcmd⟩ := runCommand_checked hrun
      · exact heq ▸ h
      · exact h.addQueue hgood hcmd
    | modQueue qm =>
      refine DefaultMarked.files_congr (d := x.disk) rfl ?_
      obtain ⟨heq, -⟩ | ⟨c', -, -, hcmd⟩ := runCommand_checked hrun
      · exact heq ▸ h
      · exact h.modQueue hgood hcmd
    | _ => exact hquiet rfl nofun
  | cleanupQueues n => exact h.cleanupQueues hrec hgood hserver
  | saveStart extended =>
    rcases saveStart_ok hserver with heq | ⟨hflush, hflush', hwritten⟩
    · have hnone : (x.server.flush.isNone && x'.server.flush.isSome) = false := by
        rw [heq]
        cases x.server.flush <;> rfl
      rw [Disk.after, hnone, heq]
      exact h
    · rw [Disk.after, hflush, hflush']
      refine h.save ?_ hwritten.queues
      refine (handle_path hrec hserver).invariant
        (I := fun c ↦ c.defaultQueue = x.server.defaultQueue) (fun hc hl hm ↦ ?_) rfl
      cases hl with
      | captureJob => exact (Shift.defaultQueue hm).trans hc
      | captureQueue | captureRes =>
        obtain ⟨-, rfl⟩ := hm
        exact hc
      | capture =>
        obtain rfl := hm
        exact hc
  | saveFinish failed =>
    refine hquiet rfl fun he ↦ ?_
    rw [he] at hgood
    exact nomatch hgood
  | _ => exact hquiet rfl nofun

/-- **The default queue survives a restart** in every state of a run whose events all keep it, if
the rules for queues have room in their group arrays. -/
theorem defaultSurvives_of_diskRuns {config : Config} {hosts : List Str} {x : OnDisk}
    (hacl : ∀ acl ∈ config.queueAcls, acl.overruns = false)
    (h : DiskRuns defaultKept config hosts x) : DefaultSurvives config hosts x := by
  have hall : x.server.recovery = none ∧ DefaultMarked x.server.toCore x.disk := by
    refine h.invariant (I := fun x ↦ x.server.recovery = none ∧
      DefaultMarked x.server.toCore x.disk) (fun {t e u} ht hgood hstep ↦ ?_) ⟨rfl, ?_⟩
    · exact ⟨handle_recovery ht.1 (diskStep_ok hstep).1, ht.2.step ht.1 hgood hstep⟩
    · exact ⟨fun _ _ _ _ hq ↦ absurd hq nofun, fun _ _ hq ↦ absurd hq nofun,
        fun _ hf ↦ absurd hf not_mem_nil, fun _ hf ↦ absurd hf not_mem_nil,
        fun _ hb ↦ nomatch hb⟩
  exact hall.2.survives hacl

namespace Sample

/-- A request for a new queue, to be the default. -/
def newDefault (name : String) : Event :=
  .client root (.addQueue { name := some name.toList, defaultQueue := 1 })

/-- Everything is saved, and after a restart the default queue is another one. -/
abbrev defaultLost (x : OnDisk) : Prop :=
  x.server.flush = none ∧ (x.server.queueTable.all fun _ q ↦ !q.obj.dirty) = true ∧
    ∃ r ∈ (stateLoadQueues env x.disk.queues (Server.initial config hosts)).toOption,
      r.2.defaultName ≠ x.server.defaultName

end Sample

/-- Queue `b` is made the default and saved, then queue `a`. Nothing touches `b`, whose file is read
last. -/
theorem not_defaultSurvives_marked_twice : ∃ x,
    DiskRuns (fun _ _ ↦ true) config hosts x ∧
      ¬ DefaultSurvives config hosts x := by
  obtain ⟨x, hrun, hflush, hclean, r, hr, hne⟩ := exists_diskRuns (fun _ _ ↦ true)
    (events [newDefault "b", .saveStart true, .saveFinish false, newDefault "a",
      .saveStart true, .saveFinish false]) defaultLost (by decide +kernel)
  refine ⟨x, hrun, fun hsurvives ↦ ?_⟩
  obtain ⟨s', hs', hname⟩ := hsurvives hflush (by simpa [all_iff] using hclean) env
  rw [hs'] at hr
  exact hne (some.inj hr ▸ hname)

/-- The same, with a change to `b` in between that makes it dirty. -/
theorem defaultSurvives_touched : ∃ x, DiskRuns defaultKept config hosts x ∧
    x.server.defaultName = some (some "a".toList) ∧ DefaultSurvives config hosts x := by
  obtain ⟨x, hrun, hx⟩ := exists_diskRuns defaultKept
    (events [newDefault "b", .saveStart true, .saveFinish false,
      .client root (.modQueue { name := some "b".toList, priority := 7 }),
      newDefault "a", .saveStart true, .saveFinish false])
    (fun x ↦ x.server.defaultName = some (some "a".toList)) (by decide +kernel)
  exact ⟨x, hrun, hx, defaultSurvives_of_diskRuns (by simp [config]) hrun⟩

end Jers
