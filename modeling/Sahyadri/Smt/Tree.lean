import Sahyadri.Smt.Hash

/-!
# `crypto/smt`: the node stores and the tree operations, as the code computes them

* `Node`, `NodeStore`: content-addressed nodes. A store is a pair of functions; `memStore` and
  `overlayStore` are the two stores of the crate. A `HashMap<H256, Node>` is a list of pairs in
  which the newest pair of a key counts.
-/

namespace Sahyadri.Smt

open Lib Action List

def treeDepth : Nat := 256

/-- A tree node: a leaf, or the hashes of two subtrees. -/
inductive Node where
  | leaf (key value : H256)
  | branch (left right : H256)
  deriving DecidableEq, Repr

def Node.hash (σ : Sponge) : Node → H256
  | .leaf key value => hashLeaf σ key value
  | .branch left right => hashBranch σ left right

inductive SmtError where
  | missingNode (h : H256)
  | depthExceeded
  deriving DecidableEq, Repr

/-! ## 1. Stores -/

/-- The `NodeStore` trait: `put` returns the hash of the node. -/
structure NodeStore (S : Type) where
  get : S → H256 → Option Node
  put : S → Node → H256 × S

/-- A `HashMap` from hashes to nodes, newest pair first. -/
abbrev NodeMap := List (H256 × Node)

structure MemStore where
  nodes : NodeMap

variable (σ : Sponge)

def memStore : NodeStore MemStore where
  get s h := s.nodes.lookup h
  put s n := (n.hash σ, ⟨(n.hash σ, n) :: s.nodes⟩)

abbrev polyStore : NodeStore MemStore := memStore polySponge

/-- `OverlayStore`: a base that is only read, and the pending writes. -/
structure OverlayStore (B : Type) where
  base : B
  pending : NodeMap

def OverlayStore.new {B : Type} (base : B) : OverlayStore B := ⟨base, []⟩

/-- Reads hit `pending` first, then the base. -/
def overlayStore {B : Type} (baseGet : B → H256 → Option Node) : NodeStore (OverlayStore B) where
  get s h := (s.pending.lookup h).or (baseGet s.base h)
  put s n := (n.hash σ, { s with pending := (n.hash σ, n) :: s.pending })

/-- What a store owes its users: `put` files the node under its hash and touches nothing else. -/
structure NodeStore.Lawful {S : Type} (N : NodeStore S) (hash : Node → H256) : Prop where
  put_fst : ∀ s n, (N.put s n).1 = hash n
  get_put : ∀ s n h, N.get (N.put s n).2 h = if h = hash n then some n else N.get s h

theorem lookup_cons_node (l : NodeMap) (h h' : H256) (n : Node) :
    ((h', n) :: l : NodeMap).lookup h = if h = h' then some n else l.lookup h := by
  rw [lookup_cons]
  by_cases he : h = h'
  · simp [he]
  · have : (h == h') = false := by simpa using he
    simp [this, he]

theorem memStore_lawful : (memStore σ).Lawful (Node.hash σ) where
  put_fst _ _ := rfl
  get_put s n h := lookup_cons_node s.nodes h (n.hash σ) n

theorem overlayStore_lawful {B : Type} (baseGet : B → H256 → Option Node) :
    (overlayStore σ baseGet).Lawful (Node.hash σ) where
  put_fst _ _ := rfl
  get_put s n h := by
    show (((n.hash σ, n) :: s.pending : NodeMap).lookup h).or (baseGet s.base h) = _
    rw [lookup_cons_node]
    split <;> rfl

section Operations

variable {S : Type} (N : NodeStore S)

/-- `store.get(h).ok_or(MissingNode(h))`. -/
def NodeStore.fetch (s : S) (h : H256) : Run SmtError Node :=
  match N.get s h with
  | some n => .ok n
  | none => .fail (.missingNode h)

/-- `store.put(node)` as an action. -/
def NodeStore.putNode (n : Node) : Action S SmtError H256 :=
  fun s => (.ok (N.put s n).1, (N.put s n).2)

/-! ## 2. Writers -/

def isLeaf (s : S) (h : H256) : Run SmtError Bool := do
  match ← N.fetch s h with
  | .leaf _ _ => return true
  | .branch _ _ => return false

/-- `normalize`: collapse a branch that holds at most one leaf. -/
def normalize (l r : H256) : Action S SmtError H256 :=
  if l = .empty ∧ r = .empty then return .empty
  else if r = .empty then do
    if ← lift (isLeaf N · l) then return l else N.putNode (.branch l r)
  else if l = .empty then do
    if ← lift (isLeaf N · r) then return r else N.putNode (.branch l r)
  else N.putNode (.branch l r)

/-- `split`: place two distinct leaves under a new subtree rooted at `depth`. -/
def split (depth : Nat) (ka va kb vb : H256) : Action S SmtError H256 :=
  if depth ≥ treeDepth then lift fun _ => .fail .depthExceeded
  else do
    let ba ← lift fun _ => bit ka depth
    let bb ← lift fun _ => bit kb depth
    if ba ≠ bb then
      let ha ← N.putNode (.leaf ka va)
      let hb ← N.putNode (.leaf kb vb)
      if ba = 0 then N.putNode (.branch ha hb) else N.putNode (.branch hb ha)
    else
      let child ← split (depth + 1) ka va kb vb
      if ba = 0 then N.putNode (.branch child .empty) else N.putNode (.branch .empty child)
termination_by treeDepth - depth

def updateAt (nodeHash : H256) (depth : Nat) (key : H256) (value : Option H256) :
    Action S SmtError H256 :=
  if nodeHash = .empty then
    match value with
    | some v => N.putNode (.leaf key v)
    | none => return .empty
  else do
    match ← lift (N.fetch · nodeHash) with
    | .leaf k v =>
      if k = key then
        match value with
        | some nv => N.putNode (.leaf k nv)
        | none => return .empty
      else
        match value with
        | none => return nodeHash
        | some nv => split N depth k v key nv
    | .branch left right =>
      if depth ≥ treeDepth then lift fun _ => .fail .depthExceeded
      else
        let b ← lift fun _ => bit key depth
        if b = 0 then
          let l ← updateAt left (depth + 1) key value
          normalize N l right
        else
          let r ← updateAt right (depth + 1) key value
          normalize N left r
termination_by treeDepth - depth

/-- `update`: set (`some`) or delete (`none`) a key. -/
def update (root key : H256) (value : Option H256) : Action S SmtError H256 :=
  updateAt N root 0 key value

/-- Keys and their new values, `none` for a removal. -/
abbrev Changes := List (H256 × Option H256)

/-- `update_many`: apply the changes one after the other. -/
def updateMany (root : H256) : Changes → Action S SmtError H256
  | [] => return root
  | (key, value) :: changes => do
    let root ← update N root key value
    updateMany root changes

/-! ## 3. Readers -/

def getLoop (s : S) (key cur : H256) (depth : Nat) : Run SmtError (Option H256) :=
  if cur = .empty then return none
  else do
    match ← N.fetch s cur with
    | .leaf k value => return if k = key then some value else none
    | .branch left right =>
      if depth ≥ treeDepth then .fail .depthExceeded
      else
        let b ← bit key depth
        getLoop s key (if b = 0 then left else right) (depth + 1)
termination_by treeDepth - depth

def get (s : S) (root key : H256) : Run SmtError (Option H256) := getLoop N s key root 0

/-- Where the walk of a proof ends. -/
inductive Terminal where
  | empty
  | leaf (key value : H256)
  deriving DecidableEq, Repr

/-- A proof: sibling hashes from the root downwards, and the terminal. -/
structure Proof where
  siblings : List H256
  terminal : Terminal
  deriving DecidableEq, Repr

/-- The loop of `prove`; `siblings` is what was collected so far. -/
def proveLoop (s : S) (key cur : H256) (depth : Nat) (siblings : List H256) : Run SmtError Proof :=
  if cur = .empty then return ⟨siblings, .empty⟩
  else do
    match ← N.fetch s cur with
    | .leaf k value => return ⟨siblings, .leaf k value⟩
    | .branch left right =>
      if depth ≥ treeDepth then .fail .depthExceeded
      else
        let b ← bit key depth
        if b = 0 then proveLoop s key left (depth + 1) (siblings ++ [right])
        else proveLoop s key right (depth + 1) (siblings ++ [left])
termination_by treeDepth - depth

def prove (s : S) (root key : H256) : Run SmtError Proof := proveLoop N s key root 0 []

/-- `set_bit`. The callers keep `i` below 256. -/
def setBit (key : H256) (i : Nat) : H256 :=
  ⟨key.bytes.modify (i / 8) (· ||| (1 <<< UInt8.ofNat (7 - i % 8))), by
    rw [length_modify, key.length_eq]⟩

/-- `subtree_max`: the largest key under the prefix `path` of length `depth`. -/
def subtreeMax (path : H256) (depth : Nat) : H256 :=
  (range' depth (treeDepth - depth)).foldl setBit path

/-- How much a stack entry of `leaves_after` can still unfold. -/
def stackWeight (stack : List (H256 × Nat × H256)) : Nat :=
  (stack.map fun e => 3 ^ (treeDepth + 1 - e.2.1)).sum

/-- The loop of `leaves_after`; the top of the stack is the head of the list. -/
def leavesLoop (s : S) (after : Option H256) (limit : Nat) (stack : List (H256 × Nat × H256))
    (out : List (H256 × H256)) : Run SmtError (List (H256 × H256)) :=
  match stack with
  | [] => return out
  | (h, depth, path) :: stack =>
    if h = .empty then leavesLoop s after limit stack out
    else if after.any fun a => decide ((subtreeMax path depth).bytes ≤ a.bytes) then
      leavesLoop s after limit stack out
    else do
      match ← N.fetch s h with
      | .leaf key value =>
        if after.all fun a => decide (a.bytes < key.bytes) then
          let out := out ++ [(key, value)]
          if out.length ≥ limit then return out else leavesLoop s after limit stack out
        else leavesLoop s after limit stack out
      | .branch left right =>
        if depth ≥ treeDepth then .fail .depthExceeded
        else
          let rpath := setBit path depth
          leavesLoop s after limit
            ((left, depth + 1, path) :: (right, depth + 1, rpath) :: stack) out
termination_by stackWeight stack
decreasing_by
  all_goals simp only [stackWeight, map_cons, sum_cons]
  all_goals try exact Nat.lt_add_of_pos_left (Nat.pow_pos (by decide))
  · rename_i hd
    have h1 : treeDepth + 1 - depth = (treeDepth + 1 - (depth + 1)) + 1 := by omega
    have h2 := Nat.pow_pos (n := treeDepth + 1 - (depth + 1)) (show 0 < 3 by decide)
    rw [h1, Nat.pow_succ]
    omega

/-- `leaves_after`: up to `limit` leaves with a key above `after`, in ascending key order. -/
def leavesAfter (s : S) (root : H256) (after : Option H256) (limit : Nat) :
    Run SmtError (List (H256 × H256)) :=
  if root = .empty ∨ limit = 0 then return []
  else leavesLoop N s after limit [(root, 0, .empty)] []

end Operations

end Sahyadri.Smt
