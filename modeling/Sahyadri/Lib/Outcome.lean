import Mathlib.Tactic.Common
import Mathlib.Data.List.Forall2

/-!
# How a call ends, and calls that work on a state they keep when they fail

* `Run ε α`: a value, an error of type `ε`, or a panic (`Fault`).
-/

namespace Sahyadri.Lib

/-! ## 1. Runs and actions -/

/-- Why a call gave no value: it returned an error, or it panicked. -/
inductive Fault (ε : Type) where
  | err (e : ε)
  | panic
  deriving DecidableEq, Repr

abbrev Run (ε α : Type) := Except (Fault ε) α

theorem except_bind_eq_ok {δ α β : Type} {x : Except δ α} {f : α → Except δ β} {b : β} :
    (x >>= f) = .ok b ↔ ∃ a, x = .ok a ∧ f a = .ok b := by
  cases x with
  | error e => exact iff_of_false (by simp [bind, Except.bind]) fun ⟨_, h, _⟩ => (by cases h)
  | ok a => exact ⟨fun h => ⟨a, rfl, h⟩, fun ⟨_, h, hf⟩ => (by cases h; exact hf)⟩

theorem exists_ok_of_isOk {δ α : Type} {x : Except δ α} (h : x.isOk = true) : ∃ a, x = .ok a := by
  cases x with
  | error e => cases h
  | ok a => exact ⟨a, rfl⟩

namespace Run

variable {ε δ α β : Type}

abbrev fail (e : ε) : Run ε α := .error (.err e)

abbrev panicked : Run ε α := .error .panic

/-- `map_err`: the error is translated, a panic stays a panic. -/
def mapErr (f : ε → δ) : Run ε α → Run δ α
  | .ok a => .ok a
  | .error (.err e) => .error (.err (f e))
  | .error .panic => .error .panic

@[simp] theorem mapErr_ok (f : ε → δ) (a : α) : mapErr f (.ok a : Run ε α) = .ok a := rfl

variable {x : Run ε α} {a : α}

theorem mapErr_eq_ok {f : ε → δ} : mapErr f x = .ok a ↔ x = .ok a := by
  rcases x with (e | _) | b <;> simp [mapErr]

@[simp] theorem ok_bind (a : α) (f : α → Run ε β) : ((.ok a : Run ε α) >>= f) = f a := rfl

@[simp] theorem error_bind (e : Fault ε) (f : α → Run ε β) :
    ((.error e : Run ε α) >>= f) = .error e := rfl

variable {f : α → Run ε β}

theorem bind_eq_ok {b : β} : (x >>= f) = .ok b ↔ ∃ a, x = .ok a ∧ f a = .ok b := except_bind_eq_ok

/-- A list of calls succeeds exactly when each of them does. -/
theorem mapM_eq_ok :
    ∀ {l : List α} {r : List β}, l.mapM f = .ok r ↔ List.Forall₂ (fun a b => f a = .ok b) l r
  | [], r => by
    rw [List.mapM_nil, List.forall₂_nil_left_iff]
    exact ⟨fun h => (Except.ok.inj h).symm, fun h => congrArg Except.ok h.symm⟩
  | a :: l, r => by
    rw [List.mapM_cons, bind_eq_ok, List.forall₂_cons_left_iff]
    constructor
    · rintro ⟨b, hb, h⟩
      obtain ⟨bs, hbs, he⟩ := bind_eq_ok.mp h
      exact ⟨b, bs, hb, mapM_eq_ok.mp hbs, (Except.ok.inj he).symm⟩
    · rintro ⟨b, bs, hb, hbs, rfl⟩
      exact ⟨b, hb, bind_eq_ok.mpr ⟨bs, mapM_eq_ok.mpr hbs, rfl⟩⟩

/-- The call returns a value or an error. -/
def NoPanic (x : Run ε α) : Prop := x ≠ .panicked

theorem NoPanic.ok (a : α) : NoPanic (.ok a : Run ε α) := fun h => (by cases h)

theorem NoPanic.fail (e : ε) : NoPanic (.fail e : Run ε α) := fun h => (by cases h)

theorem NoPanic.bind (hx : x.NoPanic) (hf : ∀ a, x = .ok a → (f a).NoPanic) :
    (x >>= f).NoPanic := by
  rcases x with (e | _) | a
  · exact .fail e
  · exact absurd rfl hx
  · exact hf a rfl

theorem NoPanic.of_bind (h : (x >>= f).NoPanic) (hx : x = .ok a) : (f a).NoPanic := by
  rw [hx] at h
  exact h

theorem NoPanic.left (h : (x >>= f).NoPanic) : x.NoPanic := by
  rintro rfl
  exact h rfl

theorem NoPanic.mapErr (hx : x.NoPanic) (f : ε → δ) : (Run.mapErr f x).NoPanic := by
  rcases x with (e | _) | a
  · exact .fail _
  · exact absurd rfl hx
  · exact .ok a

/-- A property of outcomes that sequences keep, such as not to panic, or to succeed. -/
structure Kept (P : ∀ ⦃α : Type⦄, Run ε α → Prop) : Prop where
  ok : ∀ {α : Type} (a : α), P (.ok a : Run ε α)
  bind : ∀ {α β : Type} {x : Run ε α} {f : α → Run ε β}, P x → (∀ a, x = .ok a → P (f a)) →
    P (x >>= f)

theorem kept_noPanic : Kept (ε := ε) fun _ x => x.NoPanic := ⟨.ok, .bind⟩

theorem kept_ok : Kept (ε := ε) fun _ x => ∃ a, x = .ok a where
  ok a := ⟨a, rfl⟩
  bind h hf := by
    obtain ⟨a, rfl⟩ := h
    exact hf a rfl

/-- A loop over a list with an invariant. -/
theorem Kept.foldlM {P : ∀ ⦃α : Type⦄, Run ε α → Prop} (hP : Kept P) {I : List α → β → Prop}
    {f : β → α → Run ε β}
    (hstep : ∀ a l b, I (a :: l) b → P (f b a) ∧ ∀ b', f b a = .ok b' → I l b') :
    ∀ {l : List α} {b : β}, I l b → P (l.foldlM f b)
  | [], b, _ => hP.ok b
  | a :: l, b, hI => by
    exact hP.bind (hstep a l b hI).1 fun b' hb' => hP.foldlM hstep ((hstep a l b hI).2 b' hb')

end Run

/-- A call on a state handed over by mutable reference. -/
def Action (S ε α : Type) := S → Run ε α × S

namespace Action

variable {S T ε α β : Type}

instance : Monad (Action S ε) where
  pure a := fun s => (.ok a, s)
  bind x f := fun s =>
    match x s with
    | (.ok a, s') => f a s'
    | (.error e, s') => (.error e, s')

def lift (x : S → Run ε α) : Action S ε α := fun s => (x s, s)

def fail (e : ε) : Action S ε α := fun s => (.fail e, s)

def panicked : Action S ε α := fun s => (.panicked, s)

def modify (f : S → S) : Action S ε Unit := fun s => (.ok (), f s)

/-- A check of the state that can return an error. -/
def check (f : S → Except ε α) : Action S ε α := fun s => ((f s).mapError Fault.err, s)

variable {s s' s'' : S} {a : α} {f : S → Except ε α} {e : ε}

theorem check_ok (h : f s = .ok a) : check f s = (.ok a, s) := by
  rw [check, h]
  rfl

theorem check_error (h : f s = .error e) : check f s = (.fail e, s) := by
  rw [check, h]
  rfl

/-- A call on a part of the state. -/
def within (part : S → T) (put : S → T → S) (x : Action T ε α) : Action S ε α := fun s =>
  ((x (part s)).1, put s (x (part s)).2)

/-- A call whose error is looked at by the caller; a panic is not caught. -/
def attempt {δ : Type} (x : Action S ε α) : Action S δ (Except ε α) := fun s =>
  match x s with
  | (.ok a, s') => (.ok (.ok a), s')
  | (.error (.err e), s') => (.ok (.error e), s')
  | (.error .panic, s') => (.error .panic, s')

/-- `map_err` on a call. -/
def mapErr {δ : Type} (f : ε → δ) (x : Action S ε α) : Action S δ α :=
  fun s => ((x s).1.mapErr f, (x s).2)

variable {x : Action S ε α} {δ γ : Type}

theorem mapErr_eq_ok {f : ε → δ} : x.mapErr f s = (.ok a, s') ↔ x s = (.ok a, s') := by
  rcases hx : x s with ⟨e | b, t⟩
  · simp only [mapErr, hx, Prod.mk.injEq, Run.mapErr_eq_ok]
  · simp [mapErr, hx]

theorem attempt_eq_ok : (attempt x : Action S δ _) s = (.ok (.ok a), s') ↔ x s = (.ok a, s') := by
  unfold attempt
  rcases x s with ⟨(e | _) | b, t⟩ <;> simp

theorem attempt_eq_error :
    (attempt x : Action S δ _) s = (.ok (.error e), s') ↔ x s = (.fail e, s') := by
  unfold attempt
  rcases x s with ⟨(e | _) | b, t⟩ <;> simp

@[simp] theorem lift_apply (x : S → Run ε α) (s : S) : lift x s = (x s, s) := rfl

theorem bind_apply (x : Action S ε α) (f : α → Action S ε β) (s : S) :
    (x >>= f) s = match x s with
      | (.ok a, s') => f a s'
      | (.error e, s') => (.error e, s') := rfl

theorem bind_ok (h : x s = (.ok a, s')) (f : α → Action S ε β) : (x >>= f) s = f a s' := by
  rw [bind_apply, h]

theorem bind_error {e : Fault ε} (h : x s = (.error e, s')) (f : α → Action S ε β) :
    (x >>= f) s = (.error e, s') := by
  rw [bind_apply, h]

theorem bind_lift {x : S → Run ε α} (h : x s = .ok a) (f : α → Action S ε β) :
    (lift x >>= f) s = f a s :=
  bind_ok (congrArg (·, s) h) f

theorem lift_ok_then (a : α) (f : α → Action S ε β) : (lift (fun _ => .ok a) >>= f) = f a := rfl

theorem bind_then (x : Action S ε α) (f : α → Action S ε β) (g : β → Action S ε γ) :
    ((x >>= f) >>= g) = x >>= fun a => f a >>= g := by
  funext s
  rw [bind_apply, bind_apply, bind_apply]
  rcases x s with ⟨e | a, s'⟩ <;> rfl

theorem bind_pure_unit (x : Action S ε Unit) : (x >>= fun _ => pure ()) = x := by
  funext s
  rw [bind_apply]
  rcases x s with ⟨e | _, s'⟩ <;> rfl

theorem mapErr_bind (g : ε → δ) (x : Action S ε α) (f : α → Action S ε β) :
    (x >>= f).mapErr g = x.mapErr g >>= fun a => (f a).mapErr g := by
  funext s
  rw [mapErr, bind_apply, bind_apply, mapErr]
  rcases x s with ⟨(e | _) | a, s'⟩ <;> rfl

instance : LawfulMonad (Action S ε) := LawfulMonad.mk' _ (fun x => by
    funext s
    show (x >>= pure) s = x s
    rw [bind_apply]
    rcases x s with ⟨e | a, s'⟩ <;> rfl)
  (fun _ _ => rfl) bind_then

theorem within_apply {part : S → T} {put : S → T → S} {x : Action T ε α} {r : Run ε α} {t : T}
    (h : x (part s) = (r, t)) : within part put x s = (r, put s t) := by
  rw [within, h]

variable {f : α → Action S ε β}

theorem bind_eq_ok {b : β} :
    (x >>= f) s = (.ok b, s'') ↔ ∃ a s', x s = (.ok a, s') ∧ f a s' = (.ok b, s'') := by
  rw [bind_apply]
  rcases h : x s with ⟨e | a, s'⟩
  · simp
  · constructor
    · intro hf
      exact ⟨a, s', rfl, hf⟩
    · rintro ⟨a', t, heq, hf⟩
      cases heq
      exact hf

/-! ## 2. Calls that only read -/

/-- Whatever its outcome, the call leaves the state as it is. -/
def Reads (x : Action S ε α) : Prop := ∀ s, (x s).2 = s

theorem Reads.attempt (hx : Reads x) : Reads (Action.attempt x : Action S δ _) := by
  intro s
  have hs := hx s
  unfold Action.attempt
  rcases h : x s with ⟨(e | _) | a, s'⟩ <;> rw [h] at hs <;> exact hs

/-! ## 3. Calls that do not panic -/

/-- Started anywhere, the call returns a value or an error. -/
def NoPanic (x : Action S ε α) : Prop := ∀ s, (x s).1.NoPanic

theorem NoPanic.pure (a : α) : NoPanic (Pure.pure a : Action S ε α) := fun _ => .ok a

theorem NoPanic.lift {x : S → Run ε α} (h : ∀ s, (x s).NoPanic) : NoPanic (Action.lift x) := h

theorem NoPanic.bind (hx : NoPanic x) (hf : ∀ a, NoPanic (f a)) : NoPanic (x >>= f) := by
  intro s
  have hs := hx s
  rw [bind_apply]
  rcases h : x s with ⟨e | a, s'⟩
  · rw [h] at hs
    exact fun he => hs (by cases he; rfl)
  · exact hf a s'

theorem NoPanic.mapErr (hx : NoPanic x) (f : ε → δ) : NoPanic (Action.mapErr f x) :=
  fun s => (hx s).mapErr f

/-! ## 4. Two runs side by side -/

/-- On related states the two calls have the same outcome and leave related states. -/
def Rel (R : S → T → Prop) (x : Action S ε α) (y : Action T ε α) : Prop :=
  ∀ s t, R s t → (x s).1 = (y t).1 ∧ R (x s).2 (y t).2

variable {R : S → T → Prop}

theorem rel_pure (a : α) : Rel R (pure a : Action S ε α) (pure a) := fun _ _ h => ⟨rfl, h⟩

theorem rel_lift {x : S → Run ε α} {y : T → Run ε α} (h : ∀ s t, R s t → x s = y t) :
    Rel R (lift x) (lift y) := fun s t hR => ⟨h s t hR, hR⟩

theorem rel_fail (e : ε) : Rel R (fail e : Action S ε α) (fail e) := fun _ _ h => ⟨rfl, h⟩

variable {y : Action T ε α}

theorem rel_attempt (h : Rel R x y) : Rel R (attempt x : Action S δ _) (attempt y) :=
  fun s t hR => by
  obtain ⟨h1, h2⟩ := h s t hR
  unfold attempt
  rcases hx : x s with ⟨(e | _) | a, s'⟩ <;> rcases hy : y t with ⟨(e' | _) | a', t'⟩ <;>
    rw [hx, hy] at h1 h2 <;> cases h1 <;> exact ⟨rfl, h2⟩

theorem Reads.of_rel (h : ∀ s, Rel (fun a b => a = s ∧ b = s) x x) : Reads x :=
  fun s => (h s s s ⟨rfl, rfl⟩).2.1

theorem Rel.ok (h : Rel R x y) {t : T} (hR : R s t) (hx : x s = (.ok a, s')) :
    ∃ t', y t = (.ok a, t') ∧ R s' t' := by
  obtain ⟨h1, h2⟩ := h s t hR
  rw [hx] at h1 h2
  exact ⟨(y t).2, Prod.ext h1.symm rfl, h2⟩

theorem rel_mapErr (h : Rel R x y) (f : ε → δ) : Rel R (x.mapErr f) (y.mapErr f) := fun s t hR => by
  obtain ⟨h1, h2⟩ := h s t hR
  exact ⟨congrArg (Run.mapErr f) h1, h2⟩

variable {g : α → Action T ε β}

/-- The second parts need be related only for what the first part can return. -/
theorem rel_bind_of_ok (hx : Rel R x y) (hf : ∀ {a s s'}, x s = (.ok a, s') → Rel R (f a) (g a)) :
    Rel R (x >>= f) (y >>= g) := by
  intro s t hR
  obtain ⟨h1, h2⟩ := hx s t hR
  rw [bind_apply, bind_apply]
  rcases hxs : x s with ⟨e | a, s'⟩ <;> rcases hyt : y t with ⟨e' | a', t'⟩ <;>
    rw [hxs, hyt] at h1 h2
  · exact ⟨by simpa using h1, h2⟩
  · cases h1
  · cases h1
  · cases h1
    exact hf hxs s' t' h2

theorem rel_bind (hx : Rel R x y) (hf : ∀ a, Rel R (f a) (g a)) : Rel R (x >>= f) (y >>= g) :=
  rel_bind_of_ok hx fun {a _ _} _ => hf a

/-- Related calls that do not panic. -/
def Alike (R : S → T → Prop) (x : Action S ε α) (y : Action T ε α) : Prop := Rel R x y ∧ NoPanic x

theorem Alike.pure (a : α) : Alike R (Pure.pure a : Action S ε α) (Pure.pure a) :=
  ⟨rel_pure a, .pure a⟩

theorem Alike.lift {x : S → Run ε α} {y : T → Run ε α} (h : ∀ s t, R s t → x s = y t)
    (hn : ∀ s, (x s).NoPanic) : Alike R (Action.lift x) (Action.lift y) := ⟨rel_lift h, .lift hn⟩

theorem Alike.bind (hx : Alike R x y) (hf : ∀ a, Alike R (f a) (g a)) :
    Alike R (x >>= f) (y >>= g) :=
  ⟨rel_bind hx.1 fun a => (hf a).1, hx.2.bind fun a => (hf a).2⟩

end Action

/-! ## 5. Pre- and postconditions -/

namespace Action

open List

variable {S T ε α β : Type} {P P' : S → Prop} {Q Q' : α → S → Prop} {R : β → S → Prop}
  {E E' : Fault ε → S → Prop}

/-- Started where `P` holds, the call returns what `Q` allows or fails as `E` allows. -/
def Meets (P : S → Prop) (x : Action S ε α) (Q : α → S → Prop) (E : Fault ε → S → Prop) : Prop :=
  ∀ s, P s → match x s with
    | (.ok a, s') => Q a s'
    | (.error e, s') => E e s'

variable {x : Action S ε α}

theorem Meets.imp (h : Meets P x Q E) (hP : ∀ s, P' s → P s) (hQ : ∀ a s, Q a s → Q' a s)
    (hE : ∀ e s, E e s → E' e s) : Meets P' x Q' E' := by
  intro s hs
  have hx := h s (hP s hs)
  rcases hr : x s with ⟨e | a, s'⟩
  · rw [hr] at hx
    exact hE e s' hx
  · rw [hr] at hx
    exact hQ a s' hx

variable {f : α → Action S ε β} {I : S → Prop}

/-- **A sequence.** -/
theorem Meets.bind (hx : Meets P x Q E) (hf : ∀ a, Meets (Q a) (f a) R E) :
    Meets P (x >>= f) R E := by
  intro s hs
  have h := hx s hs
  rw [bind_apply]
  rcases hr : x s with ⟨e | a, s'⟩
  · rw [hr] at h
    exact h
  · rw [hr] at h
    exact hf a s' h

/-- **A loop over a list** keeps its invariant. -/
theorem meets_forM {f : α → Action S ε PUnit} : ∀ {l : List α},
    (∀ a ∈ l, Meets I (f a) (fun _ => I) E) → Meets I (l.forM f) (fun _ => I) E
  | [], _ => fun _ hs => hs
  | a :: l, h => by
    exact (h a mem_cons_self).bind fun _ => meets_forM fun b hb => h b (mem_cons_of_mem _ hb)

/-- A loop that collects one value: every round returns the same, and keeps the invariant. -/
theorem meets_mapM {b : β} : ∀ {l : List α}, (∀ a ∈ l, Meets I (f a) (fun r s => r = b ∧ I s) E) →
      Meets I (l.mapM f) (fun r s => r = l.map (fun _ => b) ∧ I s) E
  | [], _ => fun _ hs => ⟨rfl, hs⟩
  | a :: l, h => by
    rw [mapM_cons]
    refine (h a mem_cons_self).bind fun r => ?_
    refine Meets.bind (Q := fun rs s => r = b ∧ rs = l.map (fun _ => b) ∧ I s) (fun s hs => ?_)
      fun rs s hs => ⟨by rw [hs.1, hs.2.1, map_cons], hs.2.2⟩
    obtain ⟨rfl, hs⟩ := hs
    exact (meets_mapM fun b hb => h b (mem_cons_of_mem _ hb)).imp (fun _ h => h)
      (fun _ _ h => ⟨rfl, h⟩) (fun _ _ h => h) s hs

theorem Meets.exists_ok (h : Meets P x Q fun _ _ => False) {s : S} (hs : P s) :
    ∃ a s', x s = (.ok a, s') ∧ Q a s' := by
  have hx := h s hs
  rcases hr : x s with ⟨e | a, s'⟩
  · rw [hr] at hx
    exact hx.elim
  · rw [hr] at hx
    exact ⟨a, s', rfl, hx⟩

theorem meets_of_ok (h : ∀ s, P s → ∃ a s', x s = (.ok a, s') ∧ Q a s') : Meets P x Q E := by
  intro s hs
  obtain ⟨a, s', hx, hQ⟩ := h s hs
  rw [hx]
  exact hQ

end Action

end Sahyadri.Lib
