import Mathlib.Data.Nat.Log
import Sahyadri.Fri.Verify

/-!
# `MerkleTree` and the openings of `FriBiniusPcs`

* `openings_bind_iff`: accepted openings of one index carry one leaf exactly if their paths have one
  length, and the leaf that stands there exactly if the path is as long as the committed tree is
  deep and spells the index.
* `short_path_accepted`: paths of other lengths and indices outside the tree are accepted too.
-/

namespace Sahyadri.Fri

open Lib List Run

/-! ## 1. The code -/

/-- `chunks(2)`. -/
def chunks : List Block128 → List (Block128 × Block128)
  | a :: b :: rest => (a, b) :: chunks rest
  | _ => []

structure MerkleTree where
  leaves : List Block128
  layers : List (List Block128)

def MerkleTree.root (t : MerkleTree) : Block128 :=
  (t.layers.getLastD []).getLastD 0

structure FriBiniusOpening where
  friProof : FriProof
  leaf : Block128
  leafPath : List Block128
  leafIndex : UInt64

variable {l : List Block128} {i : UInt64}

theorem chunks_getElem? : ∀ {k : Nat} {p : Block128 × Block128}, (chunks l)[k]? = some p →
    l[2 * k]? = some p.1 ∧ l[2 * k + 1]? = some p.2 := by
  fun_induction chunks l with
  | case1 a b rest ih =>
    rintro (_ | k) p h
    · cases h
      exact ⟨rfl, rfl⟩
    · exact ih h
  | case2 => exact fun h => nomatch h

theorem length_chunks : ∀ {n : Nat} {l : List Block128}, l.length = n * 2 → (chunks l).length = n
  | 0, [], _ => rfl
  | n + 1, a :: b :: rest, h => by
    rw [chunks, length_cons, length_chunks]
    simp only [length_cons] at h
    omega
  | n + 1, [_], h => by simp at h; omega

section

variable [Ops]

def hashLayer (layer : List Block128) : List Block128 :=
  (chunks layer).map fun p => hashPair p.1 p.2

def layersOver : Nat → List Block128 → List (List Block128)
  | 0, layer => [layer]
  | depth + 1, layer => layer :: layersOver depth (hashLayer layer)

/-- `MerkleTree::new`: the leaves are padded with zeros to the next power of two. -/
def MerkleTree.new (leaves : List Block128) : MerkleTree :=
  let depth := Nat.clog 2 leaves.length
  let leaves := leaves ++ replicate (2 ^ depth - leaves.length) 0
  ⟨leaves, layersOver depth leaves⟩

/-- `FriBiniusPcs::verify`. -/
def verifyOpening (params : FriParams) (commitment : Block128) (opening : FriBiniusOpening)
    (seed : Bytes) : Run FriBiniusError Unit := do
  ensure (verifyPath opening.leaf opening.leafIndex.toNat opening.leafPath commitment)
    (.query opening.leafIndex.toNat "leaf path verification failed")
  verify params commitment opening.friProof seed

/-! ## 2. The pairs that are hashed -/

def sides (index : Nat) (cur sibling : Block128) : Block128 × Block128 :=
  if index % 2 = 0 then (cur, sibling) else (sibling, cur)

/-- The pairs hashed along a path. -/
def pathPairs : Block128 → Nat → List Block128 → List (Block128 × Block128)
  | _, _, [] => []
  | cur, index, sibling :: path =>
    let pair := sides index cur sibling
    pair :: pathPairs (hashPair pair.1 pair.2) (index / 2) path

def FriBiniusOpening.pairs (o : FriBiniusOpening) : List (Block128 × Block128) :=
  pathPairs o.leaf o.leafIndex.toNat o.leafPath

abbrev NoCollision (pairs : List (Block128 × Block128)) : Prop :=
  ∀ p ∈ pairs, ∀ q ∈ pairs, hashPair p.1 p.2 = hashPair q.1 q.2 → p = q

variable {pairs : List (Block128 × Block128)} {x y s t : Block128} {i depth : Nat}
  {p q : List Block128} {params : FriParams} {seed : Bytes} {o : FriBiniusOpening}

theorem pathRoot_cons :
    pathRoot x i (s :: p) = pathRoot (hashPair (sides i x s).1 (sides i x s).2) (i / 2) p := by
  rw [pathRoot, sides]
  split <;> rfl

theorem leaf_eq_of_pathRoot (hno : NoCollision pairs)
    (hlen : p.length = q.length) (hp : pathPairs x i p ⊆ pairs)
    (hq : pathPairs y i q ⊆ pairs) (h : pathRoot x i p = pathRoot y i q) : x = y := by
  induction p generalizing q x y i with
  | nil =>
    cases length_eq_zero_iff.mp hlen.symm
    exact h
  | cons s p ih =>
    obtain ⟨t, q, rfl⟩ := exists_cons_of_length_eq_add_one hlen.symm
    rw [pathPairs, cons_subset] at hp hq
    rw [pathRoot_cons, pathRoot_cons] at h
    have hsides := hno _ hp.1 _ hq.1 (ih (Nat.succ.inj hlen) hp.2 hq.2 h)
    unfold sides at hsides
    split at hsides
    · exact congrArg Prod.fst hsides
    · exact congrArg Prod.snd hsides

/-- A path as long as the layers are deep ends in their root only from the cell at its index. -/
theorem getElem?_of_pathRoot (hno : NoCollision pairs)
    (hl : l.length = 2 ^ depth) (hi : i < 2 ^ depth) (hp : p.length = depth)
    (hpairs : pathPairs x i p ⊆ pairs) (htree : (layersOver depth l).flatMap chunks ⊆ pairs)
    (h : pathRoot x i p = ((layersOver depth l).getLastD []).getLastD 0) : l[i]? = some x := by
  induction depth generalizing l x i p with
  | zero =>
    obtain ⟨a, rfl⟩ := length_eq_one_iff.mp hl
    cases length_eq_zero_iff.mp hp
    cases Nat.lt_one_iff.mp hi
    exact congrArg some h.symm
  | succ depth ih =>
    obtain ⟨s, p, rfl⟩ := exists_cons_of_length_eq_add_one hp
    rw [pathPairs, cons_subset] at hpairs
    rw [layersOver, flatMap_cons, append_subset] at htree
    rw [pathRoot_cons,
      show (layersOver (depth + 1) l).getLastD [] = (layersOver depth (hashLayer l)).getLastD [] by
      cases depth <;> rfl] at h
    have hlen : (hashLayer l).length = 2 ^ depth := (length_map _).trans (length_chunks hl)
    have hcell := ih hlen (by omega) (Nat.succ.inj hp) hpairs.2 htree.2 h
    rw [hashLayer, getElem?_map, Option.map_eq_some_iff] at hcell
    obtain ⟨b, hb, hsides⟩ := hcell
    obtain ⟨heven, hodd⟩ := chunks_getElem? hb
    rw [hno b (htree.1 (mem_of_getElem? hb)) _ hpairs.1 hsides, sides] at heven hodd
    split at heven
    · rwa [show 2 * (i / 2) = i by omega] at heven
    · rwa [if_neg ‹_›, show 2 * (i / 2) + 1 = i by omega] at hodd

theorem verifyOpening_path (h : verifyOpening params x o seed = .ok ()) :
    pathRoot o.leaf o.leafIndex.toNat o.leafPath = x := by
  obtain ⟨_, hpath, _⟩ := bind_eq_ok.mp h
  exact of_decide_eq_true (ensure_eq_ok.mp hpath)

theorem opening_leaf_eq {o o' : FriBiniusOpening}
    (h : verifyOpening params x o seed = .ok ()) (h' : verifyOpening params x o' seed = .ok ())
    (hindex : o.leafIndex = o'.leafIndex) (hlen : o.leafPath.length = o'.leafPath.length)
    (hno : NoCollision (o.pairs ++ o'.pairs)) : o.leaf = o'.leaf := by
  have hroot := (verifyOpening_path h).trans (verifyOpening_path h').symm
  refine leaf_eq_of_pathRoot hno hlen (subset_append_left ..) ?_ (hindex ▸ hroot)
  exact hindex ▸ subset_append_right ..

theorem MerkleTree.length_leaves (evals : List Block128) :
    (MerkleTree.new evals).leaves.length = 2 ^ Nat.clog 2 evals.length := by
  have := Nat.le_pow_clog one_lt_two evals.length
  simp only [MerkleTree.new, length_append, length_replicate]
  omega

theorem opening_leaf_stored {evals : List Block128}
    (h : verifyOpening params (MerkleTree.new evals).root o seed = .ok ())
    (hlen : o.leafPath.length = Nat.clog 2 evals.length)
    (hindex : o.leafIndex.toNat < 2 ^ Nat.clog 2 evals.length)
    (hno : NoCollision (o.pairs ++ (MerkleTree.new evals).layers.flatMap chunks)) :
    (MerkleTree.new evals).leaves[o.leafIndex.toNat]? = some o.leaf :=
  getElem?_of_pathRoot hno (MerkleTree.length_leaves evals) hindex hlen (subset_append_left ..)
    (subset_append_right ..) (verifyOpening_path h)

end

/-! ## 3. Openings of every other shape -/

open MerkleTree

abbrev levelOps : Ops :=
  ⟨fun a _ => a, fun _ _ => 0, fun a _ => a + 1, toyOps.blake3, fun _ => rfl,
    toyOps.length_blake3⟩

/-- A path whose siblings are the cells next to which they stand. -/
def ladder : Block128 → Nat → List Block128
  | _, 0 => []
  | a, m + 1 => a :: ladder (a + 1) m

/-- An opening with a path of `m` cells that ends at `root`. -/
def climbing (root : Block128) (m : Nat) (i : UInt64) : FriBiniusOpening :=
  ⟨⟨[⟨root, 0⟩], [root], [⟨0, [(root, 0)], [[]]⟩], 0⟩, root - .ofNat 128 m,
    ladder (root - .ofNat 128 m) m, i⟩

section Climbing

variable {a root : Block128} {m i depth : Nat}

theorem level_succ : a + 1 + .ofNat 128 m = a + .ofNat 128 (m + 1) := by
  rw [BitVec.add_assoc, BitVec.ofNat_add, BitVec.add_comm 1]
  rfl

theorem length_ladder : (ladder a m).length = m := by
  induction m generalizing a with
  | zero => rfl
  | succ m ih => exact congrArg (· + 1) ih

theorem pathRoot_ladder : @pathRoot levelOps a i (ladder a m) = a + .ofNat 128 m := by
  induction m generalizing a i with
  | zero => exact (BitVec.add_zero a).symm
  | succ m ih =>
    show @pathRoot levelOps (if i % 2 = 0 then a + 1 else a + 1) (i / 2) (ladder (a + 1) m) = _
    rw [ite_self, ih, level_succ]

theorem pathPairs_ladder : ∀ p ∈ @pathPairs levelOps a i (ladder a m), p.1 = p.2 := by
  induction m generalizing a i with
  | zero => exact forall_mem_nil _
  | succ m ih =>
    show ∀ p ∈ sides i a a :: @pathPairs levelOps ((sides i a a).1 + 1) (i / 2) (ladder (a + 1) m),
      p.1 = p.2
    have hsides : sides i a a = (a, a) := ite_self _
    rw [hsides]
    exact forall_mem_cons.mpr ⟨rfl, ih⟩

theorem chunks_replicate (n : Nat) : chunks (replicate (2 * n) a) = replicate n (a, a) := by
  induction n with
  | zero => rfl
  | succ n ih =>
    rw [Nat.mul_succ, replicate_succ, replicate_succ, chunks, ih, replicate_succ]

theorem layers_replicate :
    ((@layersOver levelOps depth (replicate (2 ^ depth) a)).getLastD []).getLastD 0 =
      a + .ofNat 128 depth ∧
    ∀ p ∈ (@layersOver levelOps depth (replicate (2 ^ depth) a)).flatMap chunks, p.1 = p.2 := by
  induction depth generalizing a with
  | zero => exact ⟨(BitVec.add_zero a).symm, forall_mem_nil _⟩
  | succ depth ih =>
    have hhash : @hashLayer levelOps (replicate (2 ^ (depth + 1)) a) =
        replicate (2 ^ depth) (a + 1) := by
      show (chunks (replicate (2 ^ (depth + 1)) a)).map (fun p => p.1 + 1) = _
      rw [pow_succ', chunks_replicate, map_replicate]
    obtain ⟨hroot, hdiag⟩ := @ih (a + 1)
    rw [show @layersOver levelOps (depth + 1) (replicate (2 ^ (depth + 1)) a) =
      replicate (2 ^ (depth + 1)) a :: @layersOver levelOps depth
      (replicate (2 ^ depth) (a + 1)) from congrArg (_ :: @layersOver levelOps depth ·) hhash]
    constructor
    · rw [show (replicate
        (2 ^ (depth + 1)) a :: @layersOver levelOps depth (replicate (2 ^ depth) (a + 1))).getLastD
        [] = (@layersOver levelOps depth (replicate (2 ^ depth) (a + 1))).getLastD [] by
        cases depth <;> rfl, hroot, level_succ]
    · rw [flatMap_cons, forall_mem_append]
      refine ⟨fun p hp => ?_, hdiag⟩
      rw [pow_succ', chunks_replicate] at hp
      rw [eq_of_mem_replicate hp]

/-- On pairs of equal cells the hash has no collision. -/
theorem noCollision_of_diagonal {pairs : List (Block128 × Block128)} (h : ∀ p ∈ pairs, p.1 = p.2) :
    @NoCollision levelOps pairs := by
  intro p hp q hq he
  have hfst : p.1 = q.1 := (BitVec.add_left_inj 1).mp he
  exact Prod.ext hfst ((h p hp).symm.trans (hfst.trans (h q hq)))

theorem climbing_accepted (root : Block128) (m : Nat) (i : UInt64) :
    @verifyOpening levelOps ⟨0, 0, 0⟩ root (climbing root m i) [] = .ok () := by
  have hpath : @verifyPath levelOps (climbing root m i).leaf i.toNat
      (climbing root m i).leafPath root = true := by
    refine decide_eq_true (pathRoot_ladder.trans ?_)
    exact BitVec.sub_add_cancel root _
  have hproof : @verify levelOps ⟨0, 0, 0⟩ root (climbing root m i).friProof [] = .ok () := by
    simp [verify, climbing, nth, ensure, checkGrinding, checkQuery, checkPath, checkLast, foldRound,
      roundIndex, verifyPath, pathRoot, foldPair, replayChallenges, trailingZeros]
    rfl
  refine bind_eq_ok.mpr ⟨(), ensure_eq_ok.mpr hpath, hproof⟩

end Climbing

/-- All accepted openings of one index with paths of these two lengths carry one leaf. -/
def BindPaths (i : UInt64) (m m' : Nat) : Prop :=
  ∀ (_ : Ops) (params : FriParams) (seed : Bytes) (commitment : Block128) (o o' : FriBiniusOpening),
    verifyOpening params commitment o seed = .ok () → verifyOpening params commitment o' seed =
    .ok () → o.leafIndex = i → o'.leafIndex = i → o.leafPath.length = m → o'.leafPath.length = m' →
    NoCollision (o.pairs ++ o'.pairs) → o.leaf = o'.leaf

/-- All accepted openings of this index with paths of length `m` open its cell of the committed
    vector, padded to `2 ^ depth` cells. -/
def BindCells (i : UInt64) (m depth : Nat) : Prop :=
  ∀ (_ : Ops) (params : FriParams) (seed : Bytes) (evals : List Block128) (o : FriBiniusOpening),
    Nat.clog 2 evals.length = depth → verifyOpening params (new evals).root o seed = .ok () →
    o.leafIndex = i → o.leafPath.length = m →
    NoCollision (o.pairs ++ (new evals).layers.flatMap chunks) →
    i.toNat < (new evals).leaves.length ∧ (new evals).leaves[i.toNat]? = some o.leaf

theorem bindPaths_iff {m m' : Nat} (hm : m < 2 ^ 64) (hm' : m' < 2 ^ 64) :
    BindPaths i m m' ↔ m = m' := by
  constructor
  · intro h
    have hleaf :=
      h levelOps ⟨0, 0, 0⟩ [] 0 (climbing 0 m i) (climbing 0 m' i) (climbing_accepted ..)
      (climbing_accepted ..) rfl rfl length_ladder length_ladder
      (noCollision_of_diagonal fun p hp =>
        (mem_append.mp hp).elim (pathPairs_ladder p) (pathPairs_ladder p))
    have hof : BitVec.ofNat 128 m = .ofNat 128 m' := by simpa [climbing] using hleaf
    have hnat := congrArg BitVec.toNat hof
    rwa [BitVec.toNat_ofNat, BitVec.toNat_ofNat, Nat.mod_eq_of_lt (by omega),
      Nat.mod_eq_of_lt (by omega)] at hnat
  · rintro rfl ops params seed commitment o o' h h' hi hi' hlen hlen' hno
    exact opening_leaf_eq h h' (hi.trans hi'.symm) (hlen.trans hlen'.symm) hno

theorem bindCells_iff {m depth : Nat} (hm : m < 2 ^ 64) (hdepth : depth < 2 ^ 64) :
    BindCells i m depth ↔ m = depth ∧ i.toNat < 2 ^ depth := by
  constructor
  · intro h
    let tree := @new levelOps (replicate (2 ^ depth) 0)
    have hclog : Nat.clog 2 (replicate (2 ^ depth) (0 : Block128)).length = depth := by
      rw [length_replicate, Nat.clog_pow 2 depth one_lt_two]
    have hleaves : tree.leaves = replicate (2 ^ depth) 0 := by
      simp [tree, new]
    have hlayers : tree.layers = @layersOver levelOps depth (replicate (2 ^ depth) 0) := by
      show @layersOver levelOps _ tree.leaves = _
      rw [hleaves, hclog]
    have hroot : tree.root = .ofNat 128 depth := by
      rw [root, hlayers, layers_replicate.1]
      exact BitVec.zero_add _
    obtain ⟨hi, hcell⟩ :=
      h levelOps ⟨0, 0, 0⟩ [] (replicate (2 ^ depth) 0) (climbing tree.root m i) hclog
      (climbing_accepted ..) rfl length_ladder (noCollision_of_diagonal fun p hp =>
        (mem_append.mp hp).elim (pathPairs_ladder p) (hlayers ▸ layers_replicate.2 p))
    rw [show (@new levelOps (replicate (2 ^ depth) 0)).leaves = _ from hleaves] at hi hcell
    rw [length_replicate] at hi
    rw [getElem?_replicate_of_lt hi] at hcell
    have hzero : (0 : Block128) = tree.root - .ofNat 128 m := Option.some.inj hcell
    rw [hroot] at hzero
    have hof : BitVec.ofNat 128 depth = .ofNat 128 m := calc
      _ = BitVec.ofNat 128 depth - .ofNat 128 m + .ofNat 128 m := (BitVec.sub_add_cancel _ _).symm
      _ = 0 + .ofNat 128 m := by rw [← hzero]
      _ = .ofNat 128 m := BitVec.zero_add _
    have hnat := congrArg BitVec.toNat hof
    rw [BitVec.toNat_ofNat, BitVec.toNat_ofNat, Nat.mod_eq_of_lt (by omega),
      Nat.mod_eq_of_lt (by omega)] at hnat
    exact ⟨hnat.symm, hi⟩
  · rintro ⟨rfl, hi⟩ ops params seed evals o rfl h rfl hlen hno
    exact ⟨hi.trans_eq (length_leaves evals).symm, opening_leaf_stored h hlen hi hno⟩

/-- **Which openings bind**: two of one index with paths of one length; and to a committed vector,
    if the path is as long as the tree is deep and the index has no more bits than the path has
    cells. -/
theorem openings_bind_iff (i : UInt64) {m m' depth : Nat} (hm : m < 2 ^ 64) (hm' : m' < 2 ^ 64)
    (hdepth : depth < 2 ^ 64) :
    (BindPaths i m m' ↔ m = m') ∧ (BindCells i m depth ↔ m = depth ∧ i.toNat < 2 ^ m) := by
  refine ⟨bindPaths_iff hm hm', (bindCells_iff hm hdepth).trans (and_congr_right ?_)⟩
  rintro rfl
  rfl

def forged : FriProof := ⟨[⟨5, 0⟩], [5], [⟨0, [(5, 0)], [[]]⟩], 0⟩

theorem openings_bind_two :
    @verifyOpening toyOps ⟨2, 1, 0⟩ 5 ⟨forged, 2, [1], 1⟩ [] = .ok () ∧
    (@new toyOps [1, 2]).leaves[1]? = some 2 := by
  have haccepted : @verifyOpening toyOps ⟨2, 1, 0⟩ 5 ⟨forged, 2, [1], 1⟩ [] = .ok () := by decide
  have hbind := (openings_bind_iff 1 (by decide : 1 < 2 ^ 64) (by decide : 1 < 2 ^ 64)
    (by decide : 1 < 2 ^ 64)).2.mpr ⟨rfl, by decide⟩
  refine ⟨haccepted,
    (hbind toyOps ⟨2, 1, 0⟩ [] [1, 2] ⟨forged, 2, [1], 1⟩ ?_ haccepted rfl rfl ?_).2⟩
  · decide
  · show ∀ p ∈ [(1, 2), (1, 2)], ∀ q ∈ [(1, 2), (1, 2)], _ → p = q
    simp

/-- **Openings of a commitment to two cells**: an inner node as a leaf, and an index outside the
    tree. -/
theorem short_path_accepted :
    let tree := @new toyOps [1, 2]
    tree.root = 5 ∧ tree.leaves.length = 2 ∧
    ∀ o ∈ [⟨forged, 1, [2], 0⟩, ⟨forged, 5, [], 0⟩, ⟨forged, 1, [2], 2⟩],
      @verifyOpening toyOps ⟨2, 1, 0⟩ 5 o [] = .ok () ∧
      (@FriBiniusOpening.pairs toyOps o ++ tree.layers.flatMap chunks).all (· = (1, 2)) := by
  decide

end Sahyadri.Fri
