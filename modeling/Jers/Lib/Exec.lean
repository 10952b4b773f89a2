import Mathlib.Data.List.Basic
import Mathlib.Logic.Relation

/-!
# Computations that may stop

A computation of type `Except ε α` returns a value or stops with an error. Sequencing is inverted
by `Except.bind_eq_ok_iff`, and a property that every round of a fold keeps is kept by the fold.

`Exec σ ε` adds a state: a computation runs in a state and, unless it stops, returns a value and the
state it leaves. What a run of a sequence, a conditional or a loop did is read off by the inversion
rules of the second part, and a relation between states that is reflexive and transitive is carried
through a loop by `Exec.each_rel`.
-/

namespace Except

open List

universe u v

variable {ε : Type u} {α β : Type v}

instance decidableEq [DecidableEq ε] [DecidableEq α] : DecidableEq (Except ε α)
  | .ok a, .ok b => decidable_of_iff (a = b) ⟨congrArg _, Except.ok.inj⟩
  | .error a, .error b => decidable_of_iff (a = b) ⟨congrArg _, Except.error.inj⟩
  | .ok _, .error _ => isFalse nofun
  | .error _, .ok _ => isFalse nofun

variable {l : List α} {b : β} {a : α} {c : Prop} {u : Unit}

theorem bind_eq_ok_iff {x : Except ε α} {f : α → Except ε β} :
    (x >>= f) = .ok b ↔ ∃ a, x = .ok a ∧ f a = .ok b := by
  cases x with
  | error e => exact ⟨fun h ↦ (nomatch h), fun ⟨_, h, _⟩ ↦ (nomatch h)⟩
  | ok a =>
    refine ⟨fun h ↦ ⟨a, rfl, h⟩, fun ⟨a', h, h'⟩ ↦ ?_⟩
    rw [ok.inj h]
    exact h'

theorem map_eq_ok_iff {x : Except ε α} {f : α → β} :
    x.map f = .ok b ↔ ∃ a, x = .ok a ∧ f a = b := by
  cases x with
  | error e => exact ⟨fun h ↦ (nomatch h), fun ⟨_, h, _⟩ ↦ (nomatch h)⟩
  | ok a =>
    refine ⟨fun h ↦ ⟨a, rfl, ok.inj h⟩, fun ⟨a', h, h'⟩ ↦ ?_⟩
    rw [ok.inj h, ← h']
    rfl

@[simp]
theorem ok_bind (a : α) (f : α → Except ε β) : ((Except.ok a : Except ε α) >>= f) = f a := rfl

theorem toOption_eq_none_iff {x : Except ε α} : x.toOption = none ↔ ∃ e, x = .error e := by
  cases x with
  | error e => exact ⟨fun _ ↦ ⟨e, rfl⟩, fun _ ↦ rfl⟩
  | ok a => exact ⟨fun h ↦ (nomatch h), fun ⟨_, h⟩ ↦ (nomatch h)⟩

theorem toOption_ne_none_iff {x : Except ε α} : x.toOption ≠ none ↔ ∃ a, x = .ok a := by
  cases x with
  | error e => exact ⟨fun h ↦ absurd rfl h, fun ⟨_, h⟩ ↦ (nomatch h)⟩
  | ok a => exact ⟨fun _ ↦ ⟨a, rfl⟩, fun _ h ↦ (nomatch h)⟩

theorem toOption_eq_some_iff {x : Except ε α} {a : α} : x.toOption = some a ↔ x = .ok a := by
  cases x with
  | error e => exact ⟨fun h ↦ (nomatch h), fun h ↦ (nomatch h)⟩
  | ok b => exact ⟨fun h ↦ congrArg ok (Option.some.inj h), fun h ↦ congrArg some (ok.inj h)⟩

/-- **Folds keep what every round keeps.** -/
theorem foldlM_invariant {f : β → α → Except ε β} {P : β → Prop}
    (hstep : ∀ b a b', a ∈ l → P b → f b a = .ok b' → P b') {b' : β} (hb : P b)
    (h : l.foldlM f b = .ok b') : P b' := by
  induction l generalizing b with
  | nil =>
    rw [foldlM_nil] at h
    rwa [← ok.inj h]
  | cons a l ih =>
    rw [foldlM_cons, bind_eq_ok_iff] at h
    obtain ⟨c, hc, hrest⟩ := h
    exact ih (fun b x b' hx ↦ hstep b x b' (mem_cons_of_mem _ hx))
      (hstep b a c mem_cons_self hb hc) hrest

/-- A fold over a list made of segments, when the first segment goes through. -/
theorem foldlM_flatten_cons_of_ok {f : β → α → Except ε β} {b' : β} (h : l.foldlM f b = .ok b')
    (ls : List (List α)) : (l :: ls).flatten.foldlM f b = ls.flatten.foldlM f b' := by
  rw [flatten_cons, foldlM_append, h, ok_bind]

/-! ### Tests that may stop -/

/-- Unless it stops, the test says whether `P` holds. -/
def Decides (x : Except ε Bool) (P : Prop) : Prop := ∀ b, x = .ok b → (b = true ↔ P)

namespace Decides

variable {x y : Except ε Bool} {P Q : Prop}

theorem ok {b : Bool} (h : b = true ↔ P) : Decides (.ok b : Except ε Bool) P := by
  intro b' hb
  rwa [← ok.inj hb]

theorem error (e : ε) : Decides (.error e) P := fun _ h ↦ nomatch h

theorem congr (h : Decides x P) (hPQ : P ↔ Q) : Decides x Q := fun b hb ↦ (h b hb).trans hPQ

/-- A test that is made only where a condition for rejecting does not hold. -/
theorem rejecting {c : Bool} (hc : c = false ↔ P) (h : Decides y Q) :
    Decides (if c then .ok false else y) (P ∧ Q) := by
  intro b hb
  rw [← hc]
  cases c with
  | false => exact (h b hb).trans (and_iff_right rfl).symm
  | true =>
    rw [← ok.inj hb]
    exact iff_of_false Bool.false_ne_true fun hboth ↦ Bool.false_ne_true hboth.1.symm

/-- A test that is made only where another one has been passed. -/
theorem andThen (hx : Decides x P) (hy : Decides y Q) :
    Decides (x >>= fun passed ↦ if !passed then .ok false else y) (P ∧ Q) := by
  intro b hb
  obtain ⟨passed, hpassed, hrest⟩ := bind_eq_ok_iff.mp hb
  rw [← hx passed hpassed]
  have hreject : (!passed) = false ↔ passed = true := by
    rw [Bool.not_eq_false']
  exact rejecting hreject hy b hrest

end Decides

end Except

/-- Computations over a state `σ` that may stop with an error `ε`. -/
abbrev Exec (σ ε : Type) := StateT σ (Except ε)

namespace Exec

variable {σ ε α β : Type} {s s' : σ}

/-- Stop. -/
def stop (e : ε) : Exec σ ε α := fun _ ↦ .error e

/-- Read a quantity of the state. -/
def read (f : σ → α) : Exec σ ε α := fun s ↦ .ok (f s, s)

/-- Change the state. -/
def update (f : σ → σ) : Exec σ ε Unit := fun s ↦ .ok ((), f s)

/-- Run a computation that does not use the state. -/
def lift (x : Except ε α) : Exec σ ε α := fun s ↦ x.map fun a ↦ (a, s)

/-- Run `m` only if `c` holds. -/
def whenever (c : Prop) [Decidable c] (m : Exec σ ε Unit) : Exec σ ε Unit :=
  if c then m else pure ()

/-- Run `m` on every element of a list. -/
def each (m : α → Exec σ ε Unit) : List α → Exec σ ε Unit
  | [] => pure ()
  | x :: xs => do m x; each m xs

/-- A sequence ends without an error if both of its parts do. -/
theorem bind_ok_iff {m : Exec σ ε α} {f : α → Exec σ ε β} :
    (m >>= f) s = .ok (b, s') ↔ ∃ a t, m s = .ok (a, t) ∧ f a t = .ok (b, s') := by
  change (m s >>= fun p ↦ f p.1 p.2) = .ok (b, s') ↔ _
  rw [Except.bind_eq_ok_iff, Prod.exists]

@[simp]
theorem pure_ok_iff {b : α} : (pure a : Exec σ ε α) s = .ok (b, s') ↔ a = b ∧ s = s' := by
  change Except.ok (a, s) = Except.ok (b, s') ↔ _
  rw [Except.ok.injEq, Prod.mk.injEq]

/-- A computation whose value is only passed on. -/
theorem bind_pure_ok {m : Exec σ ε α} {f : α → β} (h : (m >>= fun a ↦ pure (f a)) s = .ok (b, s')) :
    ∃ a, f a = b ∧ m s = .ok (a, s') := by
  obtain ⟨a, t, hm, hret⟩ := bind_ok_iff.mp h
  obtain ⟨hb, rfl⟩ := pure_ok_iff.mp hret
  exact ⟨a, hb, hm⟩

@[simp]
theorem stop_ok_iff {e : ε} {b : α} : (stop e : Exec σ ε α) s = .ok (b, s') ↔ False :=
  ⟨fun h ↦ (nomatch h), False.elim⟩

@[simp]
theorem read_ok_iff {f : σ → α} {b : α} :
    (read f : Exec σ ε α) s = .ok (b, s') ↔ f s = b ∧ s = s' := by
  change Except.ok (f s, s) = Except.ok (b, s') ↔ _
  rw [Except.ok.injEq, Prod.mk.injEq]

theorem read_bind_ok_iff {f : σ → α} {g : α → Exec σ ε β} :
    (read f >>= g) s = .ok (b, s') ↔ ∃ a, f s = a ∧ g a s = .ok (b, s') := by
  rw [bind_ok_iff]
  simp only [read_ok_iff]
  exact ⟨fun ⟨a, _, ⟨ha, rfl⟩, hg⟩ ↦ ⟨a, ha, hg⟩, fun ⟨a, ha, hg⟩ ↦ ⟨a, s, ⟨ha, rfl⟩, hg⟩⟩

@[simp]
theorem update_ok_iff {f : σ → σ} : (update f : Exec σ ε Unit) s = .ok (u, s') ↔ s' = f s := by
  change Except.ok ((), f s) = Except.ok (u, s') ↔ _
  rw [Except.ok.injEq, Prod.mk.injEq]
  exact ⟨fun h ↦ h.2.symm, fun h ↦ ⟨rfl, h.symm⟩⟩

@[simp]
theorem lift_ok_iff {x : Except ε α} {b : α} :
    (lift x : Exec σ ε α) s = .ok (b, s') ↔ x = .ok b ∧ s = s' := by
  change x.map _ = _ ↔ _
  rw [Except.map_eq_ok_iff]
  simp only [Prod.mk.injEq]
  exact ⟨fun ⟨_, hx, hb, hs⟩ ↦ ⟨hb ▸ hx, hs⟩, fun ⟨hx, hs⟩ ↦ ⟨b, hx, rfl, hs⟩⟩

/-- A sequence whose first part has returned. -/
theorem bind_of_ok {m : Exec σ ε α} {f : α → Exec σ ε β} (h : m s = .ok (a, s')) :
    (m >>= f) s = f a s' := by
  show (m s >>= fun r ↦ f r.1 r.2) = f a s'
  rw [h]
  rfl

theorem read_bind (f : σ → α) (g : α → Exec σ ε β) (s : σ) : (read f >>= g) s = g (f s) s := rfl

theorem update_bind (f : σ → σ) (g : Unit → Exec σ ε β) (s : σ) :
    (update f >>= g) s = g () (f s) := rfl

/-- The two ways through a conditional part. -/
theorem whenever_ok_iff [Decidable c] {m : Exec σ ε Unit} :
    whenever c m s = .ok (u, s') ↔ (c ∧ m s = .ok (u, s')) ∨ (¬c ∧ s = s') := by
  unfold whenever
  split
  · next h => simp [h]
  · next h => simp [h]

/-- A check that has been passed. -/
theorem whenever_stop_ok [Decidable c] {e : ε} (h : whenever c (stop e) s = .ok (u, s')) :
    ¬c ∧ s = s' := by
  rcases whenever_ok_iff.mp h with ⟨-, hstop⟩ | hpassed
  · exact (stop_ok_iff.mp hstop).elim
  · exact hpassed

/-- **Loops whose rounds keep to their own element.** A round finds what `F` says of its element,
and keeps what `F` says of the elements that are apart from it. -/
theorem each_own {R : σ → σ → Prop} (hrefl : ∀ s, R s s) (htrans : ∀ {s t u}, R s t → R t u → R s u)
    {D : α → α → Prop} {F : α → σ → Prop} {m : α → Exec σ ε Unit} (hl : l.Pairwise D)
    (hstep : ∀ x ∈ l, ∀ s s', F x s → m x s = .ok ((), s') → R s s' ∧ ∀ y, D x y → F y s → F y s')
    (hF : ∀ x ∈ l, F x s) (h : each m l s = .ok ((), s')) : R s s' := by
  induction l generalizing s with
  | nil =>
    rw [each, pure_ok_iff] at h
    rw [← h.2]
    exact hrefl s
  | cons x l ih =>
    obtain ⟨_, t, hx, hrest⟩ := bind_ok_iff.mp h
    obtain ⟨hxl, hl⟩ := List.pairwise_cons.mp hl
    obtain ⟨hR, hkeep⟩ := hstep x List.mem_cons_self s t (hF x List.mem_cons_self) hx
    exact htrans hR (ih hl (fun y hy ↦ hstep y (List.mem_cons_of_mem _ hy))
      (fun y hy ↦ hkeep y (hxl y hy) (hF y (List.mem_cons_of_mem _ hy))) hrest)

/-- **Loops carry a relation.** What relates the states around every round, and is reflexive and
transitive, relates the states around the loop. -/
theorem each_rel {R : σ → σ → Prop} (hrefl : ∀ s, R s s) (htrans : ∀ {s t u}, R s t → R t u → R s u)
    {m : α → Exec σ ε Unit} (hstep : ∀ x ∈ l, ∀ s s', m x s = .ok ((), s') → R s s')
    (h : each m l s = .ok ((), s')) : R s s' :=
  each_own (F := fun _ _ ↦ True) hrefl htrans (List.pairwise_of_forall fun _ _ ↦ trivial)
    (fun x hx s s' _ hround ↦ ⟨hstep x hx s s' hround, fun _ _ ↦ id⟩) (fun _ _ ↦ trivial) h

/-- **Loops that write to single places.** If a round writes to the place of its element, and
writing twice is writing once, the loop writes to the places of its elements. -/
theorem each_write [DecidableEq α] {V : Type} {L : σ → α → Option V} {g : V → V}
    (hg : ∀ v, g (g v) = g v) {m : α → Exec σ ε Unit} (hstep : ∀ {a s s'}, m a s = .ok ((), s') →
      ∀ b, L s' b = if b = a then (L s b).map g else L s b) (h :
      each m l s = .ok ((), s')) (b : α) :
    L s' b = if b ∈ l then (L s b).map g else L s b := by
  induction l generalizing s with
  | nil =>
    rw [each, pure_ok_iff] at h
    simp [h.2]
  | cons x l ih =>
    obtain ⟨_, t, hx, hrest⟩ := bind_ok_iff.mp h
    have htwice : g ∘ g = g := funext hg
    rw [ih hrest, hstep hx b]
    by_cases hbx : b = x
    · simp [hbx, htwice]
    · simp [hbx]

/-- **Loops that cannot stop**: every round that finds `P` runs and leaves `P`. -/
theorem each_runs {P : σ → Prop} {m : α → Exec σ ε Unit}
    (hstep : ∀ x ∈ l, ∀ s, P s → ∃ s', m x s = .ok ((), s') ∧ P s') (hs : P s) :
    ∃ s', each m l s = .ok ((), s') ∧ P s' := by
  induction l generalizing s with
  | nil => exact ⟨s, rfl, hs⟩
  | cons x l ih =>
    obtain ⟨t, hx, ht⟩ := hstep x List.mem_cons_self s hs
    obtain ⟨u, hrest, hu⟩ := ih (fun y hy ↦ hstep y (List.mem_cons_of_mem _ hy)) ht
    exact ⟨u, bind_ok_iff.mpr ⟨(), t, hx, hrest⟩, hu⟩

/-! ### Computations that may stop, with a postcondition -/

/-- If the computation ends, `Q` holds of the value and the state it leaves. -/
def Post (m : Exec σ ε α) (s : σ) (Q : α → σ → Prop) : Prop := ∀ ⦃a s'⦄, m s = .ok (a, s') → Q a s'

section

variable {Q : α → σ → Prop} {R : β → σ → Prop} {m n : Exec σ ε α} {f : α → Exec σ ε β}

theorem Post.pure (h : Q a s) : Post (pure a : Exec σ ε α) s Q := by
  intro a' s' hm
  obtain ⟨rfl, rfl⟩ := pure_ok_iff.mp hm
  exact h

theorem Post.stop (e : ε) : Post (stop e : Exec σ ε α) s Q := fun _ _ h ↦ (stop_ok_iff.mp h).elim

/-- The second part starts in a state that the first has left. -/
theorem Post.bind (h : ∀ a t, m s = .ok (a, t) → Post (f a) t R) : Post (m >>= f) s R := by
  intro b s' hm
  obtain ⟨a, t, hfirst, hrest⟩ := bind_ok_iff.mp hm
  exact h a t hfirst hrest

/-- After a part that leaves the state alone and finds what `p` says. -/
theorem Post.bind_of {p : α → Prop}
    (hm : ∀ {b s'}, (m >>= f) s = .ok (b, s') → ∃ a, p a ∧ f a s = .ok (b, s'))
    (h : ∀ a, p a → Post (f a) s R) : Post (m >>= f) s R := by
  intro b s' hrun
  obtain ⟨a, ha, hrest⟩ := hm hrun
  exact h a ha hrest

/-- After a part that leaves the state alone. -/
theorem Post.keep (hm : ∀ {a t}, m s = .ok (a, t) → s = t)
    (h : ∀ a, m s = .ok (a, s) → Post (f a) s R) : Post (m >>= f) s R := by
  refine .bind fun a t hfirst ↦ ?_
  obtain rfl := hm hfirst
  exact h a hfirst

theorem Post.read {g : σ → α} (h : Post (f (g s)) s R) : Post (read g >>= f) s R := h

theorem Post.lift {x : Except ε α} (h : ∀ a, x = .ok a → Post (f a) s R) :
    Post (lift x >>= f) s R :=
  .keep (fun h ↦ (lift_ok_iff.mp h).2) fun a ha ↦ h a (lift_ok_iff.mp ha).1

theorem Post.update {g : σ → σ} {f : Unit → Exec σ ε β} (h : Post (f ()) (g s) R) :
    Post (update g >>= f) s R := h

theorem Post.ite [Decidable c] (hm : c → Post m s Q) (hn : ¬c → Post n s Q) :
    Post (if c then m else n) s Q := by
  split
  · next h => exact hm h
  · next h => exact hn h

end

/-! ### Computations that keep to a relation -/

/-- If the computation ends, `R` relates the state it started in to the one it leaves. -/
def Keeps (R : σ → σ → Prop) (m : Exec σ ε α) : Prop := ∀ ⦃s a s'⦄, m s = .ok (a, s') → R s s'

section

variable {R : σ → σ → Prop} {m n : Exec σ ε α} {f : α → Exec σ ε β}

theorem Keeps.stop (e : ε) : Keeps R (stop e : Exec σ ε α) := fun _ _ _ h ↦ (stop_ok_iff.mp h).elim

theorem Keeps.update {g : σ → σ} (h : ∀ s, R s (g s)) : Keeps R (update g : Exec σ ε Unit) :=
  fun s _ _ hm ↦ update_ok_iff.mp hm ▸ h s

theorem Keeps.ite [Decidable c] (hm : c → Keeps R m) (hn : ¬c → Keeps R n) :
    Keeps R (if c then m else n) := by
  split
  · next h => exact hm h
  · next h => exact hn h

instance : IsPreorder σ (Relation.ReflTransGen R) where
  refl _ := .refl
  trans _ _ _ := .trans

variable [IsPreorder σ R]

/-- A computation that leaves the state alone. -/
theorem Keeps.of_eq (h : ∀ {s a s'}, m s = .ok (a, s') → s = s') : Keeps R m :=
  fun s _ _ hm ↦ h hm ▸ refl_of R s

theorem Keeps.pure (a : α) : Keeps R (pure a : Exec σ ε α) := .of_eq fun h ↦ (pure_ok_iff.mp h).2

/-- A return before the rest. -/
theorem Keeps.unless [Decidable c] {a : α} (h : Keeps R m) :
    Keeps R (if c then Pure.pure a else m) :=
  .ite (fun _ ↦ .pure a) fun _ ↦ h

theorem Keeps.read (f : σ → α) : Keeps R (read f : Exec σ ε α) :=
  .of_eq fun h ↦ (read_ok_iff.mp h).2

theorem Keeps.lift (x : Except ε α) : Keeps R (lift x : Exec σ ε α) :=
  .of_eq fun h ↦ (lift_ok_iff.mp h).2

/-- A preorder is kept by a sequence if both parts keep it. -/
theorem Keeps.bind (hm : Keeps R m) (hf : ∀ a, Keeps R (f a)) : Keeps R (m >>= f) := by
  intro s b s' h
  obtain ⟨a, t, hfirst, hrest⟩ := bind_ok_iff.mp h
  exact trans_of R (hm hfirst) (hf a hrest)

theorem Keeps.whenever [Decidable c] {m : Exec σ ε Unit} (h : c → Keeps R m) :
    Keeps R (whenever c m) :=
  .ite h fun _ ↦ .pure ()

/-- A loop keeps what each of its rounds keeps. -/
theorem Keeps.each {m : α → Exec σ ε Unit} (h : ∀ x, Keeps R (m x)) (l : List α) :
    Keeps R (each m l) :=
  fun _ _ _ hm ↦ each_rel (refl_of R) (trans_of R) (fun x _ _ _ hx ↦ h x hx) hm

end

/-! ### Computations that do not stop -/

/-- The computation ends without an error. -/
def Succeeds (m : Exec σ ε α) (s : σ) : Prop := ∃ a s', m s = .ok (a, s')

theorem Succeeds.pure (a : α) (s : σ) : Succeeds (pure a : Exec σ ε α) s := ⟨a, s, rfl⟩

theorem Succeeds.bind_read {g : σ → α} {f : α → Exec σ ε β} (h : Succeeds (f (g s)) s) :
    Succeeds (Exec.read g >>= f) s := h

theorem Succeeds.update (f : σ → σ) (s : σ) : Succeeds (update f : Exec σ ε Unit) s :=
  ⟨(), f s, rfl⟩

/-- A sequence runs if its second part does after the first. -/
theorem Succeeds.bind {m : Exec σ ε α} {f : α → Exec σ ε β} (hm : Succeeds m s)
    (hf : ∀ {a t}, m s = .ok (a, t) → Succeeds (f a) t) : Succeeds (m >>= f) s := by
  obtain ⟨a, t, hm⟩ := hm
  obtain ⟨b, u, hb⟩ := hf hm
  exact ⟨b, u, bind_ok_iff.mpr ⟨a, t, hm, hb⟩⟩

theorem Succeeds.whenever [Decidable c] {m : Exec σ ε Unit} (h : c → Succeeds m s) :
    Succeeds (whenever c m) s := by
  by_cases hc : c
  · obtain ⟨a, t, ht⟩ := h hc
    exact ⟨a, t, whenever_ok_iff.mpr (.inl ⟨hc, ht⟩)⟩
  · exact ⟨(), s, whenever_ok_iff.mpr (.inr ⟨hc, rfl⟩)⟩

/-! ### Computations with a postcondition -/

/-- The computation ends without an error, and `Q` holds of the value and the state it leaves. -/
def Yields (m : Exec σ ε α) (s : σ) (Q : α → σ → Prop) : Prop := ∃ a s', m s = .ok (a, s') ∧ Q a s'

section

variable {Q : α → σ → Prop} {R : β → σ → Prop} {m : Exec σ ε α} {f : α → Exec σ ε β}

theorem Yields.pure (h : Q a s) : Yields (pure a : Exec σ ε α) s Q := ⟨a, s, rfl, h⟩

theorem Yields.mono {Q' : α → σ → Prop} (h : Yields m s Q) (hQ : ∀ a t, Q a t → Q' a t) :
    Yields m s Q' := by
  obtain ⟨a, t, hm, ha⟩ := h
  exact ⟨a, t, hm, hQ a t ha⟩

/-- The postcondition of the first part is all that the second relies on. -/
theorem Yields.bind (hm : Yields m s Q) (hf : ∀ a t, Q a t → Yields (f a) t R) :
    Yields (m >>= f) s R := by
  obtain ⟨a, t, hm, ha⟩ := hm
  obtain ⟨b, u, hb, hR⟩ := hf a t ha
  exact ⟨b, u, bind_ok_iff.mpr ⟨a, t, hm, hb⟩, hR⟩

/-- A sequence whose first part has returned. -/
theorem Yields.step {t : σ} (hm : m s = .ok (a, t)) (hf : Yields (f a) t R) :
    Yields (m >>= f) s R := by
  rwa [Yields, bind_of_ok hm]

/-- A sequence that does not come through its second part. -/
theorem Yields.bind_not_succeeds (hm : Yields m s Q) (hf : ∀ a t, Q a t → ¬Succeeds (f a) t) :
    ¬Succeeds (m >>= f) s := by
  obtain ⟨a, t, hm, ha⟩ := hm
  rintro ⟨b, u, hb⟩
  rw [bind_of_ok hm] at hb
  exact hf a t ha ⟨b, u, hb⟩

end

/-- A sequence that does not come through its first part. -/
theorem not_succeeds_bind {m : Exec σ ε α} {f : α → Exec σ ε β} (h : ¬Succeeds m s) :
    ¬Succeeds (m >>= f) s := by
  rintro ⟨b, u, hb⟩
  obtain ⟨a, t, hm, -⟩ := bind_ok_iff.mp hb
  exact h ⟨a, t, hm⟩

theorem not_succeeds_stop (e : ε) (s : σ) : ¬Succeeds (stop e : Exec σ ε α) s :=
  fun ⟨_, _, h⟩ ↦ stop_ok_iff.mp h

/-! ### Computations that go by steps -/

/-- If the computation ends, it has led from `s` to the state it leaves by steps of `R`. -/
def Walks (R : σ → σ → Prop) (m : Exec σ ε α) (s : σ) : Prop :=
  ∀ a s', m s = .ok (a, s') → Relation.ReflTransGen R s s'

section

variable {R : σ → σ → Prop}

/-- A computation that leaves the state alone. -/
theorem Walks.of_eq {m : Exec σ ε α} (h : ∀ {a s'}, m s = .ok (a, s') → s = s') : Walks R m s :=
  fun _ _ hm ↦ h hm ▸ .refl

/-- A computation that is one step. -/
theorem Walks.of_step {m : Exec σ ε α} (h : ∀ {a s'}, m s = .ok (a, s') → R s s') : Walks R m s :=
  fun _ _ hm ↦ .single (h hm)

theorem Walks.pure (a : α) (s : σ) : Walks R (pure a : Exec σ ε α) s :=
  .of_eq fun h ↦ (pure_ok_iff.mp h).2

theorem Walks.stop (e : ε) (s : σ) : Walks R (stop e : Exec σ ε α) s :=
  fun _ _ h ↦ (stop_ok_iff.mp h).elim

theorem Walks.read (f : σ → α) (s : σ) : Walks R (read f : Exec σ ε α) s :=
  .of_eq fun h ↦ (read_ok_iff.mp h).2

theorem Walks.bind_read {g : σ → α} {f : α → Exec σ ε β} (h : Walks R (f (g s)) s) :
    Walks R (Exec.read g >>= f) s := h

theorem Walks.update {f : σ → σ} (h : R s (f s)) : Walks R (update f : Exec σ ε Unit) s :=
  .of_step fun hm ↦ update_ok_iff.mp hm ▸ h

/-- The steps of a sequence are those of its parts. -/
theorem Walks.bind {m : Exec σ ε α} {f : α → Exec σ ε β} (hm : Walks R m s)
    (hf : ∀ {a t}, m s = .ok (a, t) → Walks R (f a) t) : Walks R (m >>= f) s := by
  intro b s' h
  obtain ⟨a, t, hfirst, hrest⟩ := bind_ok_iff.mp h
  exact (hm a t hfirst).trans (hf hfirst b s' hrest)

theorem Walks.whenever [Decidable c] {m : Exec σ ε Unit} (h : c → Walks R m s) :
    Walks R (whenever c m) s := by
  intro u s' hm
  rcases whenever_ok_iff.mp hm with ⟨hc, hdo⟩ | ⟨-, rfl⟩
  · exact h hc u s' hdo
  · exact .refl

/-- A loop goes by steps if its rounds do, from any state. -/
theorem Walks.each {m : α → Exec σ ε Unit} (h : ∀ x ∈ l, ∀ s, Walks R (m x) s) :
    Walks R (each m l) s :=
  fun _ _ hm ↦ each_rel (fun _ ↦ .refl) .trans (fun x hx s s' hstep ↦ h x hx s () s' hstep) hm

/-- A loop whose rounds need a property of the state, which they keep. -/
theorem Walks.each_of_invariant {P : σ → Prop} {m : α → Exec σ ε Unit}
    (h : ∀ x ∈ l, ∀ s, P s → Walks R (m x) s)
    (hP : ∀ x ∈ l, ∀ s s', P s → m x s = .ok ((), s') → P s') (hs : P s) :
    Walks R (Exec.each m l) s := by
  induction l generalizing s with
  | nil => exact .pure () s
  | cons x l ih =>
    refine .bind (h x List.mem_cons_self s hs) fun {_ t} hx ↦ ?_
    exact ih (fun y hy ↦ h y (List.mem_cons_of_mem _ hy))
      (fun y hy ↦ hP y (List.mem_cons_of_mem _ hy)) (hP x List.mem_cons_self s t hs hx)

/-- A computation that goes by steps wherever it starts. -/
theorem Keeps.walks {m : Exec σ ε α} (h : Keeps (Relation.ReflTransGen R) m) : Walks R m s :=
  fun _ _ hm ↦ h hm

end

end Exec
