import Sahyadri.Lib.Chain
import Sahyadri.Consensus.Protocol

/-!
# `MTReachabilityService`: questions about the selected chains, and walks along them

* `ReachabilityService`: the answers of the service. `forwardChainIterator`,
  `backwardChainIterator`: the two walks, one block at a time.
-/

namespace Sahyadri.Consensus

open Lib Smt Core List

/-! ## 1. The service -/

/-- The answers of the reachability service. A query that fails has none; it is unwrapped. -/
structure ReachabilityService where
  isChainAncestorOf : Hash → Hash → Bool
  isDagAncestorOf : Hash → Hash → Bool
  /-- `get_next_chain_ancestor(descendant, ancestor)`. -/
  getNextChainAncestor : Hash → Hash → Option Hash
  getChainParent : Hash → Option Hash

/-- `BackwardChainIterator` and `ForwardChainIterator`: where the walk is, and where it ends. -/
structure ChainIterator where
  current : Option Hash
  last : Hash
  inclusive : Bool

def ChainIterator.next {ε : Type} (move : Hash → Option Hash) (it : ChainIterator) :
    Run ε (Option Hash × ChainIterator) :=
  match it.current with
  | none => .ok (none, it)
  | some current =>
    if current = it.last then
      if it.inclusive then .ok (some current, { it with current := none })
      else .ok (none, { it with current := none })
    else
      match move current with
      | none => .panicked
      | some next => .ok (some current, { it with current := some next })

namespace ReachabilityService

variable (R : ReachabilityService)

def forwardChainIterator (fromAncestor toDescendant : Hash) (inclusive : Bool) : ChainIterator :=
  ⟨some fromAncestor, toDescendant, inclusive⟩

def forwardNext {ε : Type} (it : ChainIterator) : Run ε (Option Hash × ChainIterator) :=
  it.next (R.getNextChainAncestor it.last)

def backwardChainIterator (fromDescendant toAncestor : Hash) (inclusive : Bool) : ChainIterator :=
  ⟨some fromDescendant, toAncestor, inclusive⟩

def backwardNext {ε : Type} (it : ChainIterator) : Run ε (Option Hash × ChainIterator) :=
  it.next R.getChainParent

def defaultBackwardChainIterator (fromHash : Hash) : ChainIterator :=
  backwardChainIterator fromHash origin false

end ReachabilityService

/-! ## 2. Selected chains -/

open ChainIterator

/-- The selected parent; the genesis block is the root. -/
def chainParent (genesis : Hash) (data : StoreReader) (h : Hash) : Option Hash :=
  if h = genesis then none else (data h).map (·.selectedParent)

/-- `a` is on the selected chain of `b`. -/
abbrev OnChain (genesis : Hash) (data : StoreReader) (a b : Hash) : Prop :=
  OnPath (chainParent genesis data) a b

section Parent

variable {genesis : Hash} {data : StoreReader} {h p : Hash}

theorem chainParent_genesis : chainParent genesis data genesis = none := if_pos rfl

theorem chainParent_eq {d : SahyadriConsensusData} (hd : data h = some d) (hne : h ≠ genesis) :
    chainParent genesis data h = some d.selectedParent := by
  rw [chainParent, if_neg hne, hd, Option.map_some]

theorem chainParent_eq_some (hp : chainParent genesis data h = some p) :
    h ≠ genesis ∧ ∃ d, data h = some d ∧ d.selectedParent = p := by
  unfold chainParent at hp
  split at hp
  · cases hp
  · exact ⟨‹_›, Option.map_eq_some_iff.mp hp⟩

end Parent

/-- The service answers by the path of `b` in the tree `par`. -/
structure ServesChain (par : Hash → Option Hash) (R : ReachabilityService) (b : Hash) : Prop where
  chain : ∀ {x y}, OnPath par x b → OnPath par y b →
    (R.isChainAncestorOf x y = true ↔ OnPath par x y)
  next : ∀ {x y}, OnPath par y b → OnPath par x y → x ≠ y →
    ∃ c, R.getNextChainAncestor y x = some c ∧ par c = some x ∧ OnPath par c y

/-! ## 3. Walks -/

/-- The blocks that a walk gives, in their order. -/
def Yields {It : Type} (next : It → Run Diverged (Option Hash × It)) : It → List Hash → Prop
  | it, [] => ∃ it', next it = .ok (none, it')
  | it, x :: l => ∃ it', next it = .ok (some x, it') ∧ Yields next it' l

section Walks

variable {par : Hash → Option Hash} {R : ReachabilityService} {a b : Hash} {l : List Hash}
variable {move : Hash → Option Hash}

theorem ChainIterator.next_move {it : ChainIterator}
    {c : Hash} (h : it.current = some a) (hne : a ≠ it.last) (hmove : move a = some c) :
    (it.next move : Run Diverged _) = .ok (some a, { it with current := some c }) := by
  rw [next, h]
  dsimp only
  rw [if_neg hne, hmove]

/-- **The walk up the chain.** -/
theorem forward_yields {rank : Hash → Nat} (hb : Rising par rank b) (hserves : ServesChain par R b)
    (h : Climb par b a l) :
    Yields R.forwardNext (ReachabilityService.forwardChainIterator a b true) l := by
  induction h with
  | here => exact ⟨_, (if_pos rfl).trans (if_pos rfl), _, rfl⟩
  | @up a c l hp h ih =>
    have hne : a ≠ b := by
      rintro rfl
      have := hb c a h.onPath hp
      have := hb.le h.onPath
      omega
    obtain ⟨c', hnext, hp', hc'⟩ := hserves.next (.refl b) ((onPath_parent hp).trans h.onPath) hne
    have hc : c' = c := hb.child_unique hc' h.onPath hp' hp
    subst hc
    exact ⟨_, next_move rfl hne hnext, ih⟩

end Walks

/-! ## 4. A chain -/

def rung (n : Nat) : Hash := ⟨UInt8.ofNat n :: replicate 31 2, rfl⟩

/-- The service for such a chain. -/
def rungReach (n : Nat) : ReachabilityService where
  isChainAncestorOf x y :=
    (range n).any fun j => y = rung j ∧ (range (j + 1)).any fun i => x = rung i
  isDagAncestorOf x y := (range n).any fun j => y = rung j ∧ (range (j + 1)).any fun i => x = rung i
  getNextChainAncestor _ x :=
    (range n).findSome? fun i => if x = rung i then some (rung (i + 1)) else none
  getChainParent x := (range n).findSome? fun i => if x = rung (i + 1) then some (rung i) else none

end Sahyadri.Consensus
