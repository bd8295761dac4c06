import Mathlib.Data.List.Sort
import Sahyadri.Lib.Outcome

/-!
# Encodings one after the other, their readers, and lists that are sorted before they are encoded

* `Cuts enc P`: where the encoding of a value of `P` ends can be read off it, so that two encodings
  followed by anything are the same only if the values and what follows are.
* `Reads read enc P`: a reader takes exactly the encodings of the values of `P`.
-/

namespace Sahyadri.Lib

open List

/-! ## 1. Encodings that end where they can be seen to end -/

section Cuts

variable {α β : Type}

/-- Two encodings of values of `P`, each followed by something, are equal only if both parts are. -/
def Cuts (enc : α → List β) (P : α → Prop) : Prop :=
  ∀ ⦃a b : α⦄, P a → P b → ∀ ⦃x y : List β⦄, enc a ++ x = enc b ++ y → a = b ∧ x = y

variable {enc : α → List β} {P : α → Prop}

theorem cuts_of_length {n : Nat} (hlen : ∀ a, (enc a).length = n) (hinj : Function.Injective enc) :
    Cuts enc fun _ => True := by
  intro a b _ _ x y h
  obtain ⟨hab, hxy⟩ := append_inj h (by rw [hlen, hlen])
  exact ⟨hinj hab, hxy⟩

theorem Cuts.flatMap (h : Cuts enc P) :
    ∀ {as bs : List α}, as.length = bs.length → (∀ a ∈ as, P a) → (∀ b ∈ bs, P b) →
      ∀ {x y : List β}, as.flatMap enc ++ x = bs.flatMap enc ++ y → as = bs ∧ x = y
  | [], [], _, _, _, _, _, he => ⟨rfl, he⟩
  | a :: as, b :: bs, hlen, ha, hb, x, y, he => by
    rw [flatMap_cons, flatMap_cons, append_assoc, append_assoc] at he
    obtain ⟨hab, hrest⟩ := h (ha a mem_cons_self) (hb b mem_cons_self) he
    obtain ⟨has, hxy⟩ := h.flatMap (Nat.succ.inj hlen) (fun c hc => ha c (mem_cons_of_mem _ hc))
      (fun c hc => hb c (mem_cons_of_mem _ hc)) hrest
    exact ⟨by rw [hab, has], hxy⟩

/-- **A list with its length in front.** -/
theorem cuts_counted {count : Nat → List β} {N : Nat} (hcount : Cuts count (· < N))
    (h : Cuts enc P) : Cuts (fun l : List α => count l.length ++ l.flatMap enc) fun l =>
      l.length < N ∧ ∀ a ∈ l, P a := by
  intro as bs ha hb x y he
  rw [append_assoc, append_assoc] at he
  obtain ⟨hlen, hrest⟩ := hcount ha.1 hb.1 he
  exact h.flatMap hlen ha.2 hb.2 hrest

end Cuts

/-! ## 2. Readers -/

section Readers

variable {τ ε α β : Type}

/-- What is read at a cursor. -/
abbrev Reader (τ ε : Type) := StateT (List τ) (Except ε)

/-- The loop that reads `n` elements. -/
def readMany (read : Reader τ ε α) : Nat → Reader τ ε (List α)
  | 0 => return []
  | n + 1 => do
    let a ← read
    let l ← readMany read n
    return a :: l

/-- A reader takes exactly the encodings of the values of `P`, whatever follows them. -/
def Reads (read : Reader τ ε α) (enc : α → List τ) (P : α → Prop) : Prop :=
  ∀ c a rest, read c = .ok (a, rest) ↔ c = enc a ++ rest ∧ P a

namespace Reads

variable {read : Reader τ ε α} {enc : α → List τ} {P : α → Prop}
variable {c rest : List τ}

variable (h : Reads read enc P) {f : α → β}

include h

theorem bind {f : α → Reader τ ε β} {r : β × List τ} :
    (read >>= f) c = .ok r ↔ ∃ a c', (c = enc a ++ c' ∧ P a) ∧ f a c' = .ok r := by
  refine except_bind_eq_ok.trans ?_
  simp only [Prod.exists, h c]

theorem map {b : β} :
    (f <$> read) c = .ok (b, rest) ↔ ∃ a, (c = enc a ++ rest ∧ P a) ∧ f a = b := by
  rw [← bind_pure_comp, h.bind]
  constructor
  · rintro ⟨a, c', ha, hr⟩
    cases hr
    exact ⟨a, ha, rfl⟩
  · rintro ⟨a, ha, rfl⟩
    exact ⟨a, rest, ha, rfl⟩

theorem convert {enc' : β → List τ} {Q : β → Prop} {g : β → α}
    (hf : ∀ a, P a → Q (f a) ∧ g (f a) = a) (hg : ∀ b, Q b → P (g b) ∧ f (g b) = b)
    (henc : ∀ b, enc' b = enc (g b)) : Reads (f <$> read) enc' Q := by
  intro c b rest
  rw [h.map, henc]
  constructor
  · rintro ⟨a, ⟨rfl, ha⟩, rfl⟩
    exact ⟨by rw [(hf a ha).2], (hf a ha).1⟩
  · rintro ⟨rfl, hb⟩
    exact ⟨g b, ⟨rfl, (hg b hb).1⟩, (hg b hb).2⟩

theorem many (n : Nat) :
    Reads (readMany read n) (flatMap enc) fun l => l.length = n ∧ ∀ a ∈ l, P a := by
  induction n with
  | zero =>
    intro c l rest
    change Except.ok ([], c) = .ok (l, rest) ↔ _
    cases l <;> simp [eq_comm]
  | succ n ih =>
    rintro c (_ | ⟨a, l⟩) rest <;> simp [readMany, h.bind, ih.map, and_assoc, and_left_comm]

/-- **A list with its length in front.** -/
theorem counted {count : Reader τ ε Nat} {encCount : Nat → List τ} {N : Nat}
    (hcount : Reads count encCount (· < N)) :
    Reads (count >>= readMany read) (fun l => encCount l.length ++ l.flatMap enc)
      fun l => l.length < N ∧ ∀ a ∈ l, P a := by
  intro c l rest
  rw [hcount.bind, append_assoc]
  constructor
  · rintro ⟨n, c', ⟨rfl, hn⟩, hr⟩
    obtain ⟨rfl, rfl, hl⟩ := (h.many n c' l rest).mp hr
    exact ⟨rfl, hn, hl⟩
  · rintro ⟨rfl, hn, hl⟩
    exact ⟨l.length, _, ⟨rfl, hn⟩, (h.many _ _ l rest).mpr ⟨rfl, rfl, hl⟩⟩

end Reads

end Readers

/-! ## 3. Sorted lists -/

section Sorted

variable {α : Type} {r : α → α → Prop} [DecidableRel r]

/-- **Sorting is stable**: elements that are all tied keep their order. -/
theorem filter_insertionSort {p : α → Bool} (hp : ∀ a b, p a = true → p b = true → r a b)
    (l : List α) : (l.insertionSort r).filter p = l.filter p := by
  have htied : (l.filter p).Pairwise r := by
    refine pairwise_of_forall_mem_list fun a ha b hb => ?_
    exact hp a b (mem_filter.mp ha).2 (mem_filter.mp hb).2
  have hsub := (sublist_insertionSort htied (filter_sublist)).filter p
  rw [filter_filter] at hsub
  simp only [Bool.and_self] at hsub
  refine (hsub.eq_of_length ?_).symm
  exact ((perm_insertionSort r l).filter p).length_eq.symm

variable [Std.Total r] [IsTrans α r]

/-- Without ties between different elements the sorted list does not depend on the order. -/
theorem insertionSort_eq_of_perm {l m : List α} (hties : ∀ a ∈ l, ∀ b ∈ l, r a b → r b a → a = b)
    (h : l.Perm m) : l.insertionSort r = m.insertionSort r := by
  have hl := perm_insertionSort r l
  have hm := perm_insertionSort r m
  refine List.Perm.eq_of_pairwise (fun a b ha hb => ?_) (pairwise_insertionSort r l)
    (pairwise_insertionSort r m) (hl.trans (h.trans hm.symm))
  exact hties a (hl.mem_iff.mp ha) b (h.mem_iff.mpr (hm.mem_iff.mp hb))

/-- **The sorted list is the same for all orders exactly when different elements are not tied.** -/
theorem insertionSort_perm_iff (l : List α) :
    (∀ m, l.Perm m → l.insertionSort r = m.insertionSort r) ↔ ∀ a ∈ l, ∀ b ∈ l, r a b → r b a →
    a = b := by
  refine ⟨fun h a ha b hb hab hba => ?_, fun h m hm => insertionSort_eq_of_perm h hm⟩
  by_contra hne
  classical
  -- the two elements in front, in either order
  obtain ⟨rest, hrest⟩ : ∃ rest, l.Perm (a :: b :: rest) := by
    refine ⟨(l.erase a).erase b, (perm_cons_erase ha).trans (.cons a (perm_cons_erase ?_))⟩
    exact (mem_erase_of_ne (Ne.symm hne)).mpr hb
  have h1 := h _ hrest
  have h2 := h _ (hrest.trans (.swap b a rest))
  -- what is tied with `a` keeps its order in both
  have hp : ∀ x y : α, decide (r x a ∧ r a x) = true → decide (r y a ∧ r a y) = true → r x y :=
    fun x y hx hy => IsTrans.trans x a y (of_decide_eq_true hx).1 (of_decide_eq_true hy).2
  have hfilter := congrArg (filter fun x => decide (r x a ∧ r a x)) (h1.symm.trans h2)
  have haa : r a a := IsTrans.trans a b a hab hba
  rw [filter_insertionSort hp, filter_insertionSort hp] at hfilter
  simp only [filter_cons, haa, hab, hba, and_self, decide_true, if_true] at hfilter
  exact hne (cons.inj hfilter).1

end Sorted

end Sahyadri.Lib
