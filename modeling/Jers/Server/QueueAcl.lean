import Mathlib.Data.Nat.Bitwise
import Jers.Server.Runs

/-!
# The rules for queues

The `queue_acl` lines of the configuration file: what they say of a user, and what becomes of them.
A line is loaded into one entry for each of its expressions (`loadQueueACL`), the entries are sorted
so that those that allow come first, and `addQueue` folds the entries that match the name of a queue
into one mask for each group, from which `checkQueueACL` puts together the masks of the groups of a
user.

## What the masks are

`testBit_queuePermissions` says what a mask holds: the bits that some entry allows to the group,
less those that some entry denies to it. Two things get lost on the way. An entry is read up to the
first group 0 of its array, and a deny rule takes a permission from the groups it names, not from
the user who has it by another group. What is granted is as the file says apart from these two, and
from an array without a 0 (`AclClear`).
-/

namespace Jers

open Exec List Sample

/-! ### The rules -/

/-- The words for permissions. -/
inductive QueuePerm
  | control
  | limit
  | admin
  deriving DecidableEq, Repr

def QueuePerm.bits : QueuePerm → ℕ
  | .control => queueControl
  | .limit => queueLimit
  | .admin => queueAdmin

/-- A `queue_acl` line, as words. The groups are already looked up. -/
structure AclRule where
  allow : Bool
  permissions : List QueuePerm
  exprs : List Str
  groups : List ℕ
  deriving DecidableEq, Repr

/-- The loop over the permissions of a line, which `admin` ends. -/
def permissionBits : ℕ → List QueuePerm → ℕ
  | bits, [] => bits
  | bits, .admin :: _ => bits ||| queueAdmin
  | bits, p :: ps => permissionBits (bits ||| p.bits) ps

/-- The entry of a line for each of its expressions. -/
def AclRule.entries (r : AclRule) : List QueueAcl :=
  r.exprs.map fun expr ↦
    { expr, gids := r.groups, allow := r.allow, permissions := permissionBits 0 r.permissions }

def loadQueueACL (r : AclRule) : Except Fault (List QueueAcl) :=
  if groupLimit < r.groups.length then .error .errorDie else .ok r.entries

/-- The loading of the lines of the file, in their order. -/
def loadQueueACLs : List AclRule → Except Fault (List QueueAcl)
  | [] => .ok []
  | r :: rs => do
    let entries ← loadQueueACL r
    let rest ← loadQueueACLs rs
    return entries ++ rest

/-- `cmp_queue_acl`. -/
def cmpQueueAcl (a b : QueueAcl) : ℤ := b.allow.toNat - a.allow.toNat

/-- The entries that the rules are loaded into, in an order that `qsort` may leave them in. -/
def Configured (rules : List AclRule) (acls : List QueueAcl) : Prop :=
  ∃ entries, loadQueueACLs rules = .ok entries ∧ acls.Perm entries ∧
    acls.Pairwise fun a b ↦ cmpQueueAcl a b ≤ 0

/-! ### What the rules say -/

namespace AclRule

variable (r : AclRule)

/-- The line is about queues of that name. -/
def applies (env : Env) (name : Str) : Bool := r.exprs.any fun expr ↦ env.queueMatch expr name

/-- The line is about a permission bit. -/
def about (bit : ℕ) : Bool := r.permissions.any fun p ↦ p.bits.testBit bit

/-- The line is about a permission of a group on a queue. -/
def hits (env : Env) (name : Str) (bit gid : ℕ) : Prop :=
  r.applies env name = true ∧ r.about bit = true ∧ gid ∈ r.groups

/-- The group stands before the first group 0 of the line. -/
def reaches (env : Env) (name : Str) (bit gid : ℕ) : Prop :=
  r.applies env name = true ∧ r.about bit = true ∧ gid ∈ r.groups.takeWhile (· ≠ 0)

instance (env : Env) (name : Str) (bit gid : ℕ) : Decidable (r.hits env name bit gid) :=
  inferInstanceAs (Decidable (_ ∧ _))

instance (env : Env) (name : Str) (bit gid : ℕ) : Decidable (r.reaches env name bit gid) :=
  inferInstanceAs (Decidable (_ ∧ _))

end AclRule

section

variable (env : Env) (rules : List AclRule) (name : Str) (groups : List ℕ) (required : ℕ)

/-- Some rule allows the permission to a group of the user. -/
def Allows (bit : ℕ) : Prop :=
  ∃ r ∈ rules, r.allow = true ∧ ∃ g ∈ groups, r.hits env name bit g

/-- Some rule denies the permission to a group of the user. -/
def Denies (bit : ℕ) : Prop :=
  ∃ r ∈ rules, r.allow = false ∧ ∃ g ∈ groups, r.hits env name bit g

/-- **What the file says**: a user has the permissions that some rule allows to one of their groups,
less those that some rule denies to one of their groups. -/
def Grants : Prop :=
  ∀ bit, required.testBit bit = true →
    Allows env rules name groups bit ∧ ¬ Denies env rules name groups bit

/-- A group that stands before the first 0 of a rule that allows the permission, and of no rule that
denies it. -/
def Left (bit gid : ℕ) : Prop :=
  (∃ r ∈ rules, r.allow = true ∧ r.reaches env name bit gid) ∧
    ¬ ∃ r ∈ rules, r.allow = false ∧ r.reaches env name bit gid

/-- Denied through another group: the permission is left to a group of the user, and a rule denies
it to the user. -/
def DeniedElsewhere (bit : ℕ) : Prop :=
  (∃ g ∈ groups, Left env rules name bit g) ∧ Denies env rules name groups bit

/-- Allowed only behind a 0: no rule that allows the permission names a group of the user before its
first 0. -/
def OnlyBehindZero (bit : ℕ) : Prop :=
  Allows env rules name groups bit ∧
    ¬ ∃ r ∈ rules, r.allow = true ∧ ∃ g ∈ groups, r.reaches env name bit g

/-- The rules say for a user what becomes of them.
* No rule for the queue has an array full of groups.
* No required permission is denied through another group, unless one is left to no group anyway.
* No required permission is allowed only behind a 0, unless the file refuses one anyway. -/
structure AclClear : Prop where
  room : ∀ r ∈ rules, r.applies env name = true → r.groups.length = groupLimit → 0 ∈ r.groups
  agreed : ∀ bit, required.testBit bit = true → DeniedElsewhere env rules name groups bit →
    ∃ other, required.testBit other = true ∧ ¬ ∃ g ∈ groups, Left env rules name other g
  reached : ∀ bit, required.testBit bit = true → OnlyBehindZero env rules name groups bit →
    ¬ Grants env rules name groups required

end

/-! ### The entries of the rules -/

theorem testBit_permissionBits (bits : ℕ) (ps : List QueuePerm) (bit : ℕ) :
    (permissionBits bits ps).testBit bit =
      (bits.testBit bit || ps.any fun p ↦ p.bits.testBit bit) := by
  induction ps generalizing bits with
  | nil => simp [permissionBits]
  | cons p ps ih =>
    -- the bits of the words after `admin` are among its own
    have hadmin : ∀ q : QueuePerm, q.bits.testBit bit = true → queueAdmin.testBit bit = true := by
      intro q hq
      have hall : ∀ q : QueuePerm, q.bits &&& queueAdmin = q.bits := by
        intro q
        cases q <;> decide
      rw [← hall q, Nat.testBit_and, Bool.and_eq_true] at hq
      exact hq.2
    cases p with
    | admin =>
      rw [permissionBits, Nat.testBit_or, any_cons]
      show _ = (_ || (queueAdmin.testBit bit || _))
      by_cases hbit : queueAdmin.testBit bit = true
      · simp [hbit]
      · have hnone : (ps.any fun p ↦ p.bits.testBit bit) = false := by
          rw [List.any_eq_false]
          exact fun q _ hq ↦ hbit (hadmin q hq)
        rw [hnone, Bool.or_false]
    | control | limit =>
      rw [permissionBits, ih, Nat.testBit_or, any_cons, Bool.or_assoc]
      exact nofun

variable {rules : List AclRule}

theorem loadQueueACLs_ok {entries : List QueueAcl} (h : loadQueueACLs rules = .ok entries) :
    (∀ r ∈ rules, r.groups.length ≤ groupLimit) ∧ entries = rules.flatMap AclRule.entries := by
  induction rules generalizing entries with
  | nil =>
    obtain rfl := Except.ok.inj h
    exact ⟨nofun, rfl⟩
  | cons r rs ih =>
    obtain ⟨first, hfirst, hthen⟩ := Except.bind_eq_ok_iff.mp h
    obtain ⟨rest, hrest, hret⟩ := Except.bind_eq_ok_iff.mp hthen
    obtain rfl := Except.ok.inj hret
    obtain ⟨hall, rfl⟩ := ih hrest
    rw [loadQueueACL] at hfirst
    split at hfirst
    · exact nomatch hfirst
    next hlimit =>
    obtain rfl := Except.ok.inj hfirst
    exact ⟨forall_mem_cons.mpr ⟨not_lt.mp hlimit, hall⟩, rfl⟩

variable {permissions : List (ℕ × ℕ)} {acls : List QueueAcl}

/-- A statement about some entry is one about some rule and one of its expressions. -/
theorem Configured.exists_iff (h : Configured rules acls) (P : QueueAcl → Prop) :
    (∃ e ∈ acls, P e) ↔ ∃ r ∈ rules, ∃ expr ∈ r.exprs, P
      { expr, gids := r.groups, allow := r.allow, permissions := permissionBits 0 r.permissions } :=
      by
  obtain ⟨entries, hload, hperm, -⟩ := h
  obtain ⟨-, rfl⟩ := loadQueueACLs_ok hload
  constructor
  · rintro ⟨e, he, hP⟩
    obtain ⟨r, hr, hmem⟩ := mem_flatMap.mp (hperm.mem_iff.mp he)
    obtain ⟨expr, hexpr, rfl⟩ := List.mem_map.mp hmem
    exact ⟨r, hr, expr, hexpr, hP⟩
  · rintro ⟨r, hr, expr, hexpr, hP⟩
    exact ⟨_, hperm.mem_iff.mpr (mem_flatMap.mpr ⟨r, hr, List.mem_map.mpr ⟨expr, hexpr, rfl⟩⟩), hP⟩

/-! ### The masks -/

/-- The mask of a group. -/
def maskOf (permissions : List (ℕ × ℕ)) (gid : ℕ) : ℕ :=
  ((permissions.find? fun p ↦ p.1 == gid).map Prod.snd).getD 0

/-- The entry writes the bit of the group. -/
def QueueAcl.writes (acl : QueueAcl) (env : Env) (name : Str) (bit gid : ℕ) : Bool :=
  env.queueMatch acl.expr name && (acl.gids.takeWhile (· ≠ 0)).contains gid &&
    acl.permissions.testBit bit

theorem maskOf_map {f : ℕ × ℕ → ℕ × ℕ} (hf : ∀ p, (f p).1 = p.1)
    (gid : ℕ) : maskOf (permissions.map f) gid =
      (((permissions.find? fun p ↦ p.1 == gid).map f).map Prod.snd).getD 0 := by
  rw [maskOf, find?_map]
  have hkey : ((fun p : ℕ × ℕ ↦ p.1 == gid) ∘ f) = fun p ↦ p.1 == gid := by
    funext p
    show ((f p).1 == gid) = _
    rw [hf]
  rw [hkey]

theorem maskOf_of_not_listed {gid : ℕ} (h : (permissions.any fun p ↦ p.1 == gid) = false) :
    (permissions.find? fun p ↦ p.1 == gid) = none := by
  rw [find?_eq_none]
  intro p hp
  exact List.any_eq_false.mp h p hp

/-- **One group of an entry.** The bits of the entry are set or cleared for the group. -/
theorem testBit_grant (allow : Bool) (bits : ℕ) (permissions : List (ℕ × ℕ)) (gid bit g : ℕ) :
    (maskOf (grant allow bits permissions gid) g).testBit bit =
      if g = gid ∧ bits.testBit bit = true then allow else (maskOf permissions g).testBit bit := by
  rw [grant]
  split
  · next hlisted =>
    have hkey : ∀ p : ℕ × ℕ, (if p.1 = gid then
        (gid, if allow = true then p.2 ||| bits else p.2 ^^^ p.2 &&& bits) else p).1 = p.1 := by
      intro p
      split
      · next h => exact h.symm
      · rfl
    rw [maskOf_map hkey, maskOf]
    rcases hfind : permissions.find? fun p ↦ p.1 == g with - | p
    · have hne : g ≠ gid := by
        rintro rfl
        obtain ⟨p, hp, hpg⟩ := List.any_eq_true.mp hlisted
        exact find?_eq_none.mp hfind p hp hpg
      simp [hne, hfind]
    · have hpg : p.1 = g := by simpa using List.find?_some hfind
      by_cases hg : g = gid
      · subst hg
        cases allow <;> cases hbit : bits.testBit bit <;> simp [hfind, hpg, hbit, Nat.testBit_xor]
      · simp [hfind, hpg, hg]
  · next hlisted =>
    have hnone := maskOf_of_not_listed (Bool.not_eq_true _ ▸ hlisted)
    split
    · next hallow =>
      rw [maskOf, find?_append]
      by_cases hg : g = gid
      · subst hg
        simp [hnone, hallow, maskOf]
      · have hother : ([(gid, bits)].find? fun p ↦ p.1 == g) = none := by
          simpa using fun h ↦ hg h.symm
        rw [hother, Option.or_none, if_neg fun h ↦ hg h.1]
        rfl
    · next hallow =>
      split
      · next hhit =>
        rw [hhit.1, maskOf, hnone]
        simpa using hallow
      · rfl

/-- The groups of an entry. -/
theorem testBit_foldl_grant (allow : Bool) (bits : ℕ) (permissions : List (ℕ × ℕ)) (gids : List ℕ)
    (bit g : ℕ) : (maskOf (gids.foldl (grant allow bits) permissions) g).testBit bit =
      if g ∈ gids ∧ bits.testBit bit = true then allow else (maskOf permissions g).testBit bit := by
  induction gids generalizing permissions with
  | nil => simp
  | cons gid gids ih =>
    rw [foldl_cons, ih, testBit_grant]
    by_cases hbit : bits.testBit bit = true
    · by_cases hmem : g ∈ gids
      · simp [hbit, hmem]
      · simp [hbit, hmem]
    · simp [hbit]

/-- A sequence of writes, those of `true` first. -/
theorem foldl_writes_of_sorted {α : Type} {value hit : α → Bool} {l : List α}
    (hl : l.Pairwise fun a b ↦ value b = true → value a = true) (v : Bool) :
    l.foldl (fun v e ↦ if hit e = true then value e else v) v = true ↔
      (v = true ∨ ∃ e ∈ l, value e = true ∧ hit e = true) ∧
        ¬ ∃ e ∈ l, value e = false ∧ hit e = true := by
  induction l generalizing v with
  | nil => simp
  | cons e l ih =>
    obtain ⟨hfirst, hl⟩ := pairwise_cons.mp hl
    rw [foldl_cons, ih hl]
    by_cases hhit : hit e = true
    · rcases hvalue : value e with - | -
      · -- from here on nothing is allowed any more
        have hnone : ¬ ∃ e ∈ l, value e = true ∧ hit e = true := by
          rintro ⟨e', he', htrue, -⟩
          exact absurd (hfirst e' he' htrue) (by simp [hvalue])
        simp [hhit, hvalue, hnone]
      · simp [hhit, hvalue]
    · simp [hhit]

/-- **The masks of a queue.** The mask of a group has the bits that some entry writes for the group
and allows, less those that some entry writes and denies. -/
theorem testBit_queuePermissions
    (hsorted : acls.Pairwise fun a b ↦ cmpQueueAcl a b ≤ 0) (env : Env) (name : Str) (bit gid : ℕ) :
    (maskOf (queuePermissions env acls name) gid).testBit bit = true ↔
      (∃ e ∈ acls, e.allow = true ∧ e.writes env name bit gid = true) ∧
        ¬ ∃ e ∈ acls, e.allow = false ∧ e.writes env name bit gid = true := by
  have hfold : ∀ permissions, (maskOf (acls.foldl (fun permissions acl ↦
      if env.queueMatch acl.expr name then
        (acl.gids.takeWhile (· ≠ 0)).foldl (grant acl.allow acl.permissions) permissions
      else permissions) permissions) gid).testBit bit =
      acls.foldl (fun v e ↦ if e.writes env name bit gid = true then e.allow else v)
        ((maskOf permissions gid).testBit bit) := by
    clear hsorted
    induction acls with
    | nil => exact fun _ ↦ rfl
    | cons acl acls ih =>
      intro permissions
      rw [foldl_cons, foldl_cons, ih]
      congr 1
      by_cases hmatch : env.queueMatch acl.expr name = true
      · rw [if_pos hmatch, testBit_foldl_grant]
        simp only [QueueAcl.writes, hmatch, Bool.true_and, Bool.and_eq_true, contains_iff_mem]
      · simp [QueueAcl.writes, hmatch]
  have hle : acls.Pairwise fun a b ↦ b.allow = true → a.allow = true := by
    refine hsorted.imp ?_
    intro a b hab hb
    rw [cmpQueueAcl, hb] at hab
    by_contra ha
    rw [Bool.not_eq_true] at ha
    rw [ha] at hab
    exact absurd hab (by decide)
  rw [queuePermissions, hfold, foldl_writes_of_sorted hle]
  simp [maskOf]

/-! ### The check -/

theorem hasBits_iff {bits required : ℕ} :
    hasBits bits required = true ↔ ∀ bit, required.testBit bit = true →
    bits.testBit bit = true := by
  rw [hasBits, beq_iff_eq]
  constructor
  · intro h bit hbit
    rw [← h, Nat.testBit_and, Bool.and_eq_true] at hbit
    exact hbit.1
  · intro h
    refine Nat.eq_of_testBit_eq fun bit ↦ ?_
    rw [Nat.testBit_and]
    cases hbit : required.testBit bit with
    | false => rw [Bool.and_false]
    | true => rw [h bit hbit, Bool.true_and]

/-- The loop of `checkQueueACL` grants what the groups have together. -/
theorem aclGrants_iff (permissions : List (ℕ × ℕ)) {required perms : ℕ}
    (hperms : hasBits perms required = false) (gids : List ℕ) :
    aclGrants permissions required perms gids = true ↔ ∀ bit, required.testBit bit = true →
      perms.testBit bit = true ∨ ∃ g ∈ gids, (maskOf permissions g).testBit bit = true := by
  induction gids generalizing perms with
  | nil =>
    have hiff : hasBits perms required = true ↔ _ := hasBits_iff
    rw [hperms] at hiff
    simpa [aclGrants] using hiff
  | cons gid gids ih =>
    rw [aclGrants]
    split
    · next hnone =>
      have hmask : maskOf permissions gid = 0 := by rw [maskOf, hnone]; rfl
      rw [ih hperms]
      simp [hmask]
    · next p hfound =>
      have hmask : maskOf permissions gid = p.2 := by rw [maskOf, hfound]; rfl
      dsimp only
      cases henough : hasBits (perms ||| p.2) required with
      | true =>
        rw [Bool.true_or]
        refine iff_of_true rfl fun bit hbit ↦ ?_
        have hor := hasBits_iff.mp henough bit hbit
        rw [Nat.testBit_or, Bool.or_eq_true] at hor
        exact hor.imp id fun h ↦ ⟨gid, mem_cons_self, hmask.symm ▸ h⟩
      | false =>
        rw [Bool.false_or, ih henough]
        simp only [Nat.testBit_or, Bool.or_eq_true, mem_cons, exists_eq_or_imp, hmask, or_assoc]

/-! ### The queue that is checked -/

variable {s : Server}

theorem updateQueue_runs {b : Addr} {q : Queue} (hq : s.queueTable.get? b = some q) (dirty : Bool) :
    ∃ s', updateQueue b dirty s = .ok ((), s') ∧
      s'.queueTable.get? b = some { q with obj := q.obj.updated dirty } := by
  have hget : getQueue b s = .ok (q, s) := by
    show deref (s.queueTable.get? b) s = _
    rw [hq]
    rfl
  have hmod : modifyQueue b (fun q ↦ { q with obj := q.obj.updated dirty }) s = .ok ((), { s with
      queueTable := s.queueTable.modify b fun q ↦ { q with obj := q.obj.updated dirty } }) :=
    bind_of_ok hget
  have htouched := Table.get?_modify_self hq fun q ↦ { q with obj := q.obj.updated dirty }
  cases dirty with
  | false | true => exact ⟨_, bind_of_ok hmod, htouched⟩

theorem addQueue_overrun (env : Env) (old : Option Addr) (q : Queue) (dirty : Bool)
    (h : overrun env s.config.queueAcls q.name = true) :
    addQueue env old q dirty s = .error .outOfBounds := by
  unfold addQueue
  rw [read_bind, read_bind, whenever, if_pos h]
  rfl

/-- A queue that is added has the masks for its name, if no rule runs out of its array. -/
theorem addQueue_runs (env : Env) (old : Option Addr) (q : Queue) (dirty : Bool)
    (h : overrun env s.config.queueAcls q.name = false) :
    ∃ b s' q', addQueue env old q dirty s = .ok (b, s') ∧ s'.queueTable.get? b = some q' ∧
      q'.permissions = queuePermissions env s.config.queueAcls q.name := by
  let b := old.getD s.queueTable.next
  let p : Queue := { q with permissions := queuePermissions env s.config.queueAcls q.name }
  let t : Server := { s with
    queueTable := if old.isSome then s.queueTable.reput b p else s.queueTable.push p }
  have hput : t.queueTable.get? b = some p := by
    cases old with
    | none => exact (Table.get?_push _ _ _).trans (if_pos rfl)
    | some b => exact (Table.get?_reput _ _ _ _).trans (if_pos rfl)
  have hdefault : ∃ u : Server, whenever (p.isDefault ≠ 0)
      (update fun s ↦ { s with defaultQueue := some b } : Daemon Unit) t = .ok ((), u) ∧
      u.queueTable.get? b = some p := by
    by_cases hd : p.isDefault ≠ 0
    · exact ⟨_, whenever_ok_iff.mpr (.inl ⟨hd, rfl⟩), hput⟩
    · exact ⟨_, whenever_ok_iff.mpr (.inr ⟨hd, rfl⟩), hput⟩
  obtain ⟨u, hdefault, hu⟩ := hdefault
  obtain ⟨v, hupdate, hv⟩ := updateQueue_runs hu dirty
  refine ⟨b, v, _, ?_, hv, rfl⟩
  have hscan : whenever (overrun env s.config.queueAcls q.name = true)
      (stop .outOfBounds : Daemon Unit) s = .ok ((), s) :=
    whenever_ok_iff.mpr (.inr ⟨by simp [h], rfl⟩)
  unfold addQueue
  rw [read_bind, read_bind]
  exact bind_ok_iff.mpr ⟨(), s, hscan, bind_ok_iff.mpr ⟨(), t, rfl,
    bind_ok_iff.mpr ⟨(), u, hdefault, bind_ok_iff.mpr ⟨(), v, hupdate, rfl⟩⟩⟩⟩

/-! ### What is granted -/

section

variable {env : Env} {rules : List AclRule} {acls : List QueueAcl} {name : Str}

/-- An entry of a rule that reaches the group. -/
theorem Configured.writes_iff (h : Configured rules acls) (allow : Bool) (bit gid : ℕ) :
    (∃ e ∈ acls, e.allow = allow ∧ e.writes env name bit gid = true) ↔
      ∃ r ∈ rules, r.allow = allow ∧ r.reaches env name bit gid := by
  rw [h.exists_iff]
  refine exists_congr fun r ↦ and_congr_right fun _ ↦ ?_
  simp only [QueueAcl.writes, AclRule.reaches, AclRule.applies, AclRule.about,
    testBit_permissionBits, Bool.and_eq_true, contains_iff_mem, List.any_eq_true, Nat.zero_testBit,
    Bool.false_or]
  constructor
  · rintro ⟨expr, hexpr, hallow, ⟨hmatch, hgid⟩, hbit⟩
    exact ⟨hallow, ⟨expr, hexpr, hmatch⟩, hbit, hgid⟩
  · rintro ⟨hallow, ⟨expr, hexpr, hmatch⟩, hbit, hgid⟩
    exact ⟨expr, hexpr, hallow, ⟨hmatch, hgid⟩, hbit⟩

/-- The mask of a group has the permissions that are left to it. -/
theorem Configured.testBit_iff (h : Configured rules acls) (bit gid : ℕ) :
    (maskOf (queuePermissions env acls name) gid).testBit bit = true ↔
      Left env rules name bit gid := by
  rw [testBit_queuePermissions h.choose_spec.2.2, h.writes_iff, h.writes_iff, Left]

/-- A rule with a full array. -/
theorem Configured.overrun_iff (h : Configured rules acls) : overrun env acls name = true ↔
    ∃ r ∈ rules, r.applies env name = true ∧ r.groups.length = groupLimit ∧ 0 ∉ r.groups := by
  obtain ⟨entries, hload, -, -⟩ := id h
  have hlimit := (loadQueueACLs_ok hload).1
  rw [overrun, List.any_eq_true, h.exists_iff]
  refine exists_congr fun r ↦ and_congr_right fun hr ↦ ?_
  have hfull : groupLimit ≤ r.groups.length ↔ r.groups.length = groupLimit :=
    ⟨fun hle ↦ le_antisymm (hlimit r hr) hle, fun heq ↦ heq.ge⟩
  simp only [QueueAcl.overruns, AclRule.applies, Bool.and_eq_true, List.any_eq_true,
    decide_eq_true_eq, hfull, List.all_eq_true]
  constructor
  · rintro ⟨expr, hexpr, hmatch, hlen, hall⟩
    exact ⟨⟨expr, hexpr, hmatch⟩, hlen, fun h0 ↦ absurd (hall 0 h0) (by simp)⟩
  · rintro ⟨⟨expr, hexpr, hmatch⟩, hlen, h0⟩
    refine ⟨expr, hexpr, hmatch, hlen, fun g hg ↦ ?_⟩
    rintro rfl
    exact h0 hg

/-- The check of a user who is neither root nor a global queue admin. -/
theorem Configured.checkQueueACL_iff (h : Configured rules acls) {c : Client} {u : User}
    (huid : c.uid ≠ 0) (huser : c.user = some u) (hglobal : hasBits u.permissions permQueue = false)
    {required : ℕ} (hrequired : required ≠ 0) {q : Queue}
    (hq : q.permissions = queuePermissions env acls name) :
    checkQueueACL (some c) q required = .ok false ↔ ∀ bit, required.testBit bit = true →
      ∃ g ∈ u.groupList, Left env rules name bit g := by
  have hnothing : hasBits 0 required = false := by
    rw [hasBits, Nat.zero_and, beq_eq_false_iff_ne]
    exact hrequired.symm
  have hcheck : checkQueueACL (some c) q required =
      .ok !aclGrants (queuePermissions env acls name) required 0 u.groupList := by
    simp only [checkQueueACL, if_neg huid, huser, hglobal, hq, Bool.false_eq_true, if_false]
  rw [hcheck, Except.ok.injEq, Bool.not_eq_false', aclGrants_iff _ hnothing]
  simp only [Nat.zero_testBit, Bool.false_eq_true, false_or, h.testBit_iff]

end

/-- **The rules say what becomes of them.** A queue that is added is one on which a user is granted
a set of permissions exactly when the file says so. -/
def AclObeyed (env : Env) (rules : List AclRule) (old : Option Addr) (q : Queue) (dirty : Bool)
    (groups : List ℕ) (c : Client) (required : ℕ) (s : Server) : Prop :=
  ∃ b s' q', addQueue env old q dirty s = .ok (b, s') ∧ s'.queueTable.get? b = some q' ∧
    (checkQueueACL (some c) q' required = .ok false ↔ Grants env rules q.name groups required)

/-- For every list of rules, every queue and every user without the global permission, the check of
a set of permissions is what the file says exactly when the rules are clear for them. -/
theorem aclObeyed_iff (env : Env) {rules : List AclRule} {s : Server}
    (hconfig : Configured rules s.config.queueAcls) (old : Option Addr) (q : Queue) (dirty : Bool)
    {c : Client} {u : User} (huid : c.uid ≠ 0) (huser : c.user = some u)
    (hglobal : hasBits u.permissions permQueue = false) {required : ℕ} (hrequired : required ≠ 0) :
    AclObeyed env rules old q dirty u.groupList c required s ↔
      AclClear env rules q.name u.groupList required := by
  have hallows : ∀ {bit g}, g ∈ u.groupList → Left env rules q.name bit g →
      Allows env rules q.name u.groupList bit := by
    rintro bit g hg ⟨⟨r, hr, hallow, happlies, habout, hgid⟩, -⟩
    exact ⟨r, hr, hallow, g, hg, happlies, habout, (takeWhile_subset _) hgid⟩
  constructor
  · rintro ⟨b, s', q', hadd, hq', hobeyed⟩
    have hroom : overrun env s.config.queueAcls q.name = false := by
      by_contra hover
      rw [Bool.not_eq_false] at hover
      rw [addQueue_overrun _ _ _ _ hover] at hadd
      exact nomatch hadd
    obtain ⟨b₁, s₁, q₁, hadd₁, hq₁, hperms⟩ := addQueue_runs env old q dirty hroom
    obtain ⟨rfl, rfl⟩ := Prod.mk.inj (Except.ok.inj (hadd.symm.trans hadd₁))
    obtain rfl := Option.mem_unique hq' hq₁
    rw [hconfig.checkQueueACL_iff huid huser hglobal hrequired hperms] at hobeyed
    refine ⟨?_, ?_, ?_⟩
    · intro r hr happlies hlen
      by_contra h0
      exact absurd (hconfig.overrun_iff.mpr ⟨r, hr, happlies, hlen, h0⟩) (by simp [hroom])
    · rintro bit hbit ⟨-, hdeny⟩
      by_contra! hleft
      exact (hobeyed.mp hleft bit hbit).2 hdeny
    · rintro bit hbit ⟨-, hbehind⟩ hgrants
      obtain ⟨g, hg, ⟨r, hr, hallow, hreach⟩, -⟩ := hobeyed.mpr hgrants bit hbit
      exact hbehind ⟨r, hr, hallow, g, hg, hreach⟩
  · intro hclear
    have hroom : overrun env s.config.queueAcls q.name = false := by
      by_contra hover
      rw [Bool.not_eq_false] at hover
      obtain ⟨r, hr, happlies, hlen, h0⟩ := hconfig.overrun_iff.mp hover
      exact h0 (hclear.room r hr happlies hlen)
    obtain ⟨b, s', q', hadd, hq', hperms⟩ := addQueue_runs env old q dirty hroom
    refine ⟨b, s', q', hadd, hq', ?_⟩
    rw [hconfig.checkQueueACL_iff huid huser hglobal hrequired hperms]
    constructor
    · intro hleft bit hbit
      obtain ⟨g, hg, hleft'⟩ := hleft bit hbit
      refine ⟨hallows hg hleft', fun hdeny ↦ ?_⟩
      obtain ⟨other, hother, hnone⟩ := hclear.agreed bit hbit ⟨hleft bit hbit, hdeny⟩
      exact hnone (hleft other hother)
    · intro hgrants bit hbit
      obtain ⟨r, hr, hallow, g, hg, hreach⟩ := not_not.mp fun hbehind ↦
        hclear.reached bit hbit ⟨(hgrants bit hbit).1, hbehind⟩ hgrants
      refine ⟨g, hg, ⟨r, hr, hallow, hreach⟩, ?_⟩
      -- a rule that denies the permission to the group is one that the file denies it by
      rintro ⟨r', hr', hdeny, happlies, habout, hgid⟩
      exact (hgrants bit hbit).2
        ⟨r', hr', hdeny, g, hg, happlies, habout, (takeWhile_subset _) hgid⟩

namespace Sample

/-- Group 5 may start and stop every queue, group 6 may not. -/
def aclRules : List AclRule :=
  [{ allow := true, permissions := [.control], exprs := ["*".toList], groups := [5] },
    { allow := false, permissions := [.control], exprs := ["*".toList], groups := [6] }]

def aclConfig : Config := { config with queueAcls := aclRules.flatMap AclRule.entries }

def aclEnv : Env := { env with queueMatch := fun expr _ ↦ expr == "*".toList }

def aclQueue : Queue := newQueue { name := some "q".toList } "q".toList "node".toList 0 0

/-- A user of some groups. -/
def member (groupList : List ℕ) : Client :=
  { uid := 7, user := some { permissions := 0, groupList } }

theorem configured_aclRules : Configured aclRules aclConfig.queueAcls :=
  ⟨_, rfl, .refl _, by decide⟩

end Sample

/-- A user of a group that may control a queue is granted the control, although the rules deny it to
another group of the user. -/
theorem not_aclObeyed_deny : Configured aclRules aclConfig.queueAcls ∧
    ¬ AclObeyed aclEnv aclRules none aclQueue true [5, 6]
      (member [5, 6]) queueControl (Server.initial aclConfig hosts) := by
  refine ⟨configured_aclRules, ?_⟩
  rintro ⟨b, s', q', hadd, hq', hiff⟩
  obtain ⟨b₁, s₁, q₁, hadd₁, hq₁, hperms⟩ := addQueue_runs aclEnv none aclQueue true
    (s := Server.initial aclConfig hosts) (by decide)
  obtain ⟨rfl, rfl⟩ := Prod.mk.inj (Except.ok.inj (hadd.symm.trans hadd₁))
  obtain rfl := Option.mem_unique hq' hq₁
  have hgranted : checkQueueACL (some (member [5, 6])) q' queueControl = .ok false := by
    show Except.ok (!aclGrants q'.permissions queueControl 0 [5, 6]) = _
    rw [hperms]
    decide
  refine (hiff.mp hgranted 0 (by decide)).2 ?_
  exact ⟨_, mem_cons_of_mem _ mem_cons_self, rfl, 6, by decide, by decide⟩

/-- A user of the first group alone. -/
theorem aclObeyed_iff_member : Configured aclRules aclConfig.queueAcls ∧
    AclObeyed aclEnv aclRules none aclQueue true [5]
      (member [5]) queueControl (Server.initial aclConfig hosts) := by
  refine ⟨configured_aclRules, (aclObeyed_iff aclEnv configured_aclRules none
    aclQueue true (c := member [5]) (u := { permissions := 0, groupList := [5] })
    (by decide) rfl (by decide) (by decide)).mpr ⟨by decide, ?_, ?_⟩⟩
  · rintro bit - ⟨-, r, hr, hdeny, g, hg, -, -, hgid⟩
    obtain rfl := mem_singleton.mp hg
    have hall : ∀ r ∈ aclRules, r.allow = false → 5 ∉ r.groups := by decide
    exact absurd hgid (hall r hr hdeny)
  · rintro bit - ⟨⟨r, hr, hallow, g, hg, happlies, habout, hgid⟩, hbehind⟩ -
    have hall : ∀ r ∈ aclRules, ∀ g ∈ r.groups, g ∈ r.groups.takeWhile (· ≠ 0) := by decide
    exact hbehind ⟨r, hr, hallow, g, hg, happlies, habout, hall r hr g hgid⟩

end Jers
