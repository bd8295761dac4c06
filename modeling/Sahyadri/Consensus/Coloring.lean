import Sahyadri.Lib.Cluster
import Sahyadri.Consensus.Mergeset

/-!
# `check_blue_candidate` against `k`-clusters

The view of a new block is its own data so far and the data of the blocks of its selected chain,
down to the genesis block. A blue block's anticone size is the first entry found on the way down.

* `SelectedChain`: the data on the way down, every block having its blue blocks in its past.
-/

namespace Sahyadri.Consensus

open Lib Smt Core List SahyadriConsensusManager Candidate Table

/-! ## 1. Views -/

abbrev ChainEntry := Hash × SahyadriConsensusData

def bluesOf (l : List ChainEntry) : List Hash := l.flatMap (·.2.mergesetBlues)

abbrev bluesIn (l : List ChainEntry) : Finset Hash := (bluesOf l).toFinset

def sizeIn (l : List ChainEntry) (x : Hash) : Option KType :=
  l.findSome? (·.2.bluesAnticoneSizes.lookup x)

/-- The selected chain of a block, down to the genesis block. -/
inductive SelectedChain (D : Dag Hash) (data : StoreReader) :
    Hash → List ChainEntry → Prop where
  | genesis
      {d : SahyadriConsensusData} (hd : data D.genesis = some d) (hblues : d.mergesetBlues = [])
      (hsizes : d.bluesAnticoneSizes = ∅) : SelectedChain D data D.genesis [(D.genesis, d)]
  | step {h : Hash} {d : SahyadriConsensusData} {l : List ChainEntry} (hne : h ≠ D.genesis)
      (hreal : h ≠ origin) (hd : data h = some d) (hparent : D.Past d.selectedParent h)
      (hblues : ∀ x ∈ d.mergesetBlues, D.Past x h)
      (hrest : SelectedChain D data d.selectedParent l) : SelectedChain D data h ((h, d) :: l)

/-- The sizes of a view are exact, and its blue blocks are a `k`-cluster. -/
structure Exact (D : Dag Hash) (k : Nat) (l : List ChainEntry) : Prop where
  nodup : (bluesOf l).Nodup
  size : ∀ x ∈ bluesOf l, sizeIn l x = some (UInt16.ofNat (strangers D.Anticone (bluesIn l) x).card)
  cluster : k < 65535 → KCluster D.Anticone k (bluesIn l)

section Chain

variable {D : Dag Hash} {data : StoreReader} {h : Hash} {l : List ChainEntry}

theorem bluesOf_cons (e : ChainEntry) (l : List ChainEntry) :
    bluesOf (e :: l) = e.2.mergesetBlues ++ bluesOf l := flatMap_cons

theorem sizeIn_cons (e : ChainEntry) (l : List ChainEntry) (x : Hash) :
    sizeIn (e :: l) x = (e.2.bluesAnticoneSizes.lookup x).or (sizeIn l x) := by
  unfold sizeIn
  rw [findSome?_cons]
  cases e.2.bluesAnticoneSizes.lookup x <;> rfl

variable (hc : SelectedChain D data h l)

include hc

theorem SelectedChain.head : ∃ d l', l = (h, d) :: l' ∧ data h = some d := by
  cases hc with
  | genesis hd _ _ => exact ⟨_, _, rfl, hd⟩
  | step _ _ hd _ _ _ => exact ⟨_, _, rfl, hd⟩

theorem SelectedChain.past : ∀ x ∈ bluesOf l, D.Past x h := by
  induction hc with
  | genesis hd hblues hsizes =>
    intro x hx
    rw [bluesOf_cons, hblues] at hx
    exact absurd hx not_mem_nil
  | step hne hreal hd hparent hblues hrest ih =>
    intro x hx
    rcases mem_append.mp hx with hx | hx
    · exact hblues x hx
    · exact (ih x hx).trans hparent

theorem SelectedChain.mono {data' : StoreReader}
    (hsub : ∀ {b d}, data b = some d → data' b = some d) :
    SelectedChain D data' h l := by
  induction hc with
  | genesis hd hblues hsizes => exact .genesis (hsub hd) hblues hsizes
  | step hne hreal hd hparent hblues _ ih => exact .step hne hreal (hsub hd) hparent hblues ih

theorem SelectedChain.unique {l' : List ChainEntry}
    (hc' : SelectedChain D data h l') : l = l' := by
  induction hc generalizing l' with
  | genesis hd hblues hsizes =>
    cases hc' with
    | genesis hd' _ _ => rw [Option.some.inj (hd.symm.trans hd')]
    | step hne _ _ _ _ _ => exact absurd rfl hne
  | step hne hreal hd hparent hblues hrest ih =>
    cases hc' with
    | genesis hd' _ _ => exact absurd rfl hne
    | step _ _ hd' _ _ hrest' =>
      cases hd.symm.trans hd'
      rw [ih hrest']

end Chain

/-! ## 2. `blue_anticone_size` -/

section Size

variable {D : Dag Hash} {m : SahyadriConsensusManager} {s : ConsensusStores} {h x : Hash}
  {l : List ChainEntry}

theorem blueAnticoneSizeLoop_ok (hg : m.genesisHash = D.genesis) (hc : SelectedChain D s.data h l) :
    ∀ {sizes : Table Hash KType} {fuel : Nat} {n : KType},
    (sizes.lookup x).or (sizeIn l x) = some n → l.length ≤ fuel →
        m.blueAnticoneSizeLoop s x fuel sizes h = .ok n := by
  induction hc with
  | @genesis d hd hblues hsizes =>
    intro sizes fuel n hn hfuel
    obtain ⟨fuel, rfl⟩ := Nat.exists_eq_add_of_lt hfuel
    have hempty : sizeIn [(D.genesis, d)] x = none := by
      rw [sizeIn_cons, hsizes]
      rfl
    rw [hempty, Option.or_none] at hn
    unfold blueAnticoneSizeLoop
    rw [hn]
  | @step h d l hne hreal hd hparent hblues hrest ih =>
    intro sizes fuel n hn hfuel
    obtain ⟨fuel, rfl⟩ := Nat.exists_eq_add_of_lt hfuel
    unfold blueAnticoneSizeLoop
    cases hl : sizes.lookup x with
    | some size =>
      rw [hl, Option.some_or] at hn
      rw [← Option.some.inj hn]
    | none =>
      rw [hl, Option.none_or, sizeIn_cons] at hn
      rw [if_neg (by rw [hg]; exact not_or.mpr ⟨hne, hreal⟩), hd]
      exact ih hn (Nat.le_add_right _ _)

/-- **The size found for a block of a view.** -/
theorem blueAnticoneSize_ok (hg : m.genesisHash = D.genesis) {b : Hash}
    {ctx : SahyadriConsensusData} (hc : SelectedChain D s.data ctx.selectedParent l) {n : KType}
    (hn : sizeIn ((b, ctx) :: l) x = some n) {fuel : Nat} (hfuel : l.length ≤ fuel) :
    m.blueAnticoneSize s fuel x ctx = .ok n := by
  rw [sizeIn_cons] at hn
  exact blueAnticoneSizeLoop_ok hg hc hn hfuel

end Size

/-! ## 3. The loops over the blue blocks -/

/-- The candidate with more blue blocks in its anticone. -/
def Candidate.extend (sizeOf : Hash → KType) (c : Candidate) (qs : List Hash) : Candidate :=
  qs.foldl (fun c x => ⟨c.bluesAnticoneSizes.insert x (sizeOf x), c.blueAnticoneSize + 1⟩) c

/-- Nothing is found against the candidate: with these, it has at most `k` blue blocks in its
    anticone, and none of them has `k` already. -/
def Admits (k : KType) (sizeOf : Hash → KType) (count : Nat) (qs : List Hash) : Prop :=
  (k.toNat < 65535 → count + qs.length ≤ k.toNat) ∧ ∀ x ∈ qs, sizeOf x ≠ k

section Loops

variable {m : SahyadriConsensusManager} {s : ConsensusStores} {sizeOf : Hash → KType}
variable {count fuel steps : Nat} {k : KType}

theorem admits_nil (h : k.toNat < 65535 → count ≤ k.toNat) : Admits k sizeOf count [] :=
  ⟨h, forall_mem_nil _⟩

variable {ps qs rest bs : List Hash}

theorem admits_append : Admits k sizeOf count (ps ++ qs) ↔
      Admits k sizeOf count ps ∧ Admits k sizeOf (count + ps.length) qs := by
  unfold Admits
  rw [length_append, forall_mem_append]
  constructor
  · rintro ⟨h1, h2, h3⟩
    exact ⟨⟨fun hk => by have := h1 hk; omega, h2⟩, fun hk => by have := h1 hk; omega, h3⟩
  · rintro ⟨⟨_, h2⟩, h1, h3⟩
    exact ⟨fun hk => by have := h1 hk; omega, h2, h3⟩

theorem exceeds_iff (h : k.toNat < 65535 → count ≤ k.toNat) :
    UInt16.ofNat count + 1 > k ↔ ¬ (k.toNat < 65535 → count + 1 ≤ k.toNat) := by
  have hadd : UInt16.ofNat count + 1 = UInt16.ofNat (count + 1) := (UInt16.ofNat_add count 1).symm
  rw [hadd, gt_iff_lt, UInt16.lt_iff_toNat_lt, UInt16.toNat_ofNat']
  by_cases hlt : k.toNat < 65535
  · have hle := h hlt
    rw [Nat.mod_eq_of_lt (by omega)]
    constructor
    · exact fun hgt hall => absurd (hall hlt) (not_le.mpr hgt)
    · exact fun hall => Nat.lt_of_not_le fun hle => hall fun _ => hle
  · exact iff_of_false (by omega) fun hall => hall fun hk => absurd hk hlt

theorem Candidate.extend_append (c : Candidate) (ps qs : List Hash) :
    c.extend sizeOf (ps ++ qs) = (c.extend sizeOf ps).extend sizeOf qs := foldl_append

theorem Candidate.size_extend :
    ∀ {c : Candidate} {count : Nat}, c.blueAnticoneSize = UInt16.ofNat count →
      (c.extend sizeOf qs).blueAnticoneSize = UInt16.ofNat (count + qs.length) := by
  induction qs with
  | nil => exact fun h => h
  | cons q qs ih =>
    intro c count h
    have hone : (⟨c.bluesAnticoneSizes.insert q (sizeOf q), c.blueAnticoneSize + 1⟩ :
        Candidate).blueAnticoneSize = UInt16.ofNat (count + 1) := by
      rw [UInt16.ofNat_add, ← h]
      rfl
    rw [length_cons, add_comm qs.length, ← add_assoc]
    exact ih hone

variable {new chainData d : SahyadriConsensusData} {cand h x : Hash}

theorem checkPeers_ok : ∀ {c : Candidate} {count : Nat},
    (∀ x ∈ ps.filter (¬ s.isDagAncestorOf · cand),
      m.blueAnticoneSize s fuel x new = .ok (sizeOf x) ∧ sizeOf x ≤ m.k) →
    c.blueAnticoneSize = UInt16.ofNat count → (m.k.toNat < 65535 → count ≤ m.k.toNat) →
      (Admits m.k sizeOf count (ps.filter (¬ s.isDagAncestorOf · cand)) → m.checkPeers s fuel
        new cand ps c = .ok (.pending, c.extend sizeOf (ps.filter (¬ s.isDagAncestorOf · cand)))) ∧
      (¬ Admits m.k sizeOf count (ps.filter (¬ s.isDagAncestorOf · cand)) →
        ∃ c', m.checkPeers s fuel new cand ps c = .ok (.red, c')) := by
  induction ps with
  | nil => exact fun _ _ hc => ⟨fun _ => rfl, fun h => absurd (admits_nil hc) h⟩
  | cons p ps ih =>
    intro c count hsize hcount hc
    unfold checkPeers
    by_cases hp : s.isDagAncestorOf p cand = true
    · rw [filter_cons_of_neg (by simpa using hp)] at hsize ⊢
      rw [if_pos hp]
      exact ih hsize hcount hc
    · rw [filter_cons_of_pos (by simpa using hp)] at hsize ⊢
      obtain ⟨⟨hps, hle⟩, hrest⟩ := forall_mem_cons.mp hsize
      rw [if_neg hp, hps, Run.ok_bind, ← singleton_append, admits_append]
      rw [hcount]
      by_cases hmany : UInt16.ofNat count + 1 > m.k
      · rw [if_pos hmany]
        exact ⟨fun h => absurd h.1.1 ((exceeds_iff hc).mp hmany), fun _ => ⟨_, rfl⟩⟩
      · have hfew : m.k.toNat < 65535 → count + 1 ≤ m.k.toNat :=
          not_not.mp (mt (exceeds_iff hc).mpr hmany)
        rw [if_neg hmany]
        by_cases hfull : sizeOf p = m.k
        · rw [if_pos hfull]
          exact ⟨fun h => absurd hfull (h.1.2 p (mem_singleton_self p)), fun _ => ⟨_, rfl⟩⟩
        · have hone : Admits m.k sizeOf count [p] :=
            ⟨hfew, fun x hx => by rw [mem_singleton.mp hx]; exact hfull⟩
          rw [if_neg hfull, if_neg (not_not.mpr hle), and_iff_right hone, ← hcount]
          exact ih hrest (by rw [hcount]; exact (UInt16.ofNat_add count 1).symm) hfew

/-- The blue blocks that the loop looks at: it stops at the first chain block below the
    candidate. -/
def peersFrom (s : ConsensusStores) (cand : Hash) : List ChainEntry → List Hash
  | [] => []
  | (h, d) :: l =>
    if s.isDagAncestorOf h cand then []
    else d.mergesetBlues.filter (¬ s.isDagAncestorOf · cand) ++ peersFrom s cand l

/-- What the loop ends with, once the blue blocks it looks at are known. -/
def outcomeOf (k : KType) (sizeOf : Hash → KType) (count : Nat) (c : Candidate) (qs : List Hash)
    (out : Run Diverged ColoringOutput) : Prop :=
  (Admits k sizeOf count qs → out =
    .ok (.blue (c.extend sizeOf qs).blueAnticoneSize (c.extend sizeOf qs).bluesAnticoneSizes)) ∧
  (¬ Admits k sizeOf count qs → out = .ok .red)

theorem outcomeOf_append {hash : Option Hash}
    {c : Candidate} (hgo : hash.any (s.isDagAncestorOf · cand) = false)
    (hsize : ∀ x ∈ chainData.mergesetBlues.filter (¬ s.isDagAncestorOf · cand),
      m.blueAnticoneSize s fuel x new = .ok (sizeOf x) ∧ sizeOf x ≤ m.k)
    (hcount : c.blueAnticoneSize = UInt16.ofNat count) (hc : m.k.toNat < 65535 → count ≤ m.k.toNat)
    (hd : s.data chainData.selectedParent = some d)
    (hrest : ∀ {c' : Candidate} {count' : Nat}, c'.blueAnticoneSize = UInt16.ofNat count' →
      (m.k.toNat < 65535 → count' ≤ m.k.toNat) → outcomeOf m.k sizeOf count' c' rest
        (m.checkLoop s fuel new cand steps (some chainData.selectedParent) d c')) : outcomeOf
      m.k sizeOf count c (chainData.mergesetBlues.filter (¬ s.isDagAncestorOf · cand) ++ rest)
      (m.checkLoop s fuel new cand (steps + 1) hash chainData c) := by
  obtain ⟨hpending, hred⟩ := checkPeers_ok hsize hcount hc
  have hone : m.checkBlueCandidateWithChainBlock s fuel new hash chainData cand c =
      m.checkPeers s fuel new cand chainData.mergesetBlues c := by
    unfold checkBlueCandidateWithChainBlock
    rw [hgo, if_neg Bool.false_ne_true]
  unfold checkLoop outcomeOf
  rw [hone, admits_append, extend_append]
  by_cases hadm :
    Admits m.k sizeOf count (chainData.mergesetBlues.filter (¬ s.isDagAncestorOf · cand))
  · obtain ⟨h1, h2⟩ := hrest (size_extend hcount) hadm.1
    rw [hpending hadm, Run.ok_bind]
    rw [hd]
    exact ⟨fun h => h1 h.2, fun h => h2 fun h' => h ⟨hadm, h'⟩⟩
  · obtain ⟨c', hc'⟩ := hred hadm
    rw [hc']
    exact ⟨fun h => absurd h.1 hadm, fun _ => rfl⟩

variable {l : List ChainEntry} {D : Dag Hash}

/-- **The loop down the selected chain.** -/
theorem checkLoop_ok (hgen : s.isDagAncestorOf D.genesis cand = true)
    (hchain : SelectedChain D s.data h l) : ∀ {steps : Nat}, l.length ≤ steps →
    (∀ x ∈ peersFrom s cand l, m.blueAnticoneSize s fuel x new = .ok (sizeOf x) ∧ sizeOf x ≤ m.k) →
    ∀ {d : SahyadriConsensusData}, s.data h = some d → ∀ {c : Candidate} {count : Nat},
      c.blueAnticoneSize = UInt16.ofNat count → (m.k.toNat < 65535 → count ≤ m.k.toNat) →
      outcomeOf m.k sizeOf count c (peersFrom s cand l)
        (m.checkLoop s fuel new cand steps (some h) d c) := by
  -- a chain block that is an ancestor of the candidate ends the loop
  have hstop : ∀ {h : Hash} {d : SahyadriConsensusData} {l : List ChainEntry} {steps count : Nat}
      {c : Candidate}, (m.k.toNat < 65535 → count ≤ m.k.toNat) → s.isDagAncestorOf h cand = true →
      outcomeOf m.k sizeOf count c (peersFrom s cand ((h, d) :: l))
        (m.checkLoop s fuel new cand (steps + 1) (some h) d c) :=
    fun {h d l steps count c} hc hanc => by
    have hnone : peersFrom s cand ((h, d) :: l) = [] := if_pos hanc
    rw [hnone]
    refine ⟨fun _ => ?_, fun hno => absurd (admits_nil hc) hno⟩
    unfold checkLoop checkBlueCandidateWithChainBlock
    rw [if_pos (by simpa using hanc)]
    rfl
  induction hchain with
  | @genesis d₀ hd hblues hsizes =>
    intro steps hsteps hsize d hd' c count _ hc
    obtain ⟨steps, rfl⟩ := Nat.exists_eq_add_of_lt hsteps
    cases hd.symm.trans hd'
    exact hstop hc hgen
  | @step h d₀ l hne hreal hd hparent hblues hrest ih =>
    intro steps hsteps hsize d hd' c count hcount hc
    obtain ⟨steps, rfl⟩ := Nat.exists_eq_add_of_lt hsteps
    cases hd.symm.trans hd'
    by_cases hanc : s.isDagAncestorOf h cand = true
    · exact hstop hc hanc
    · have hpeers : peersFrom s cand ((h, d₀) :: l) =
          d₀.mergesetBlues.filter (¬ s.isDagAncestorOf · cand) ++ peersFrom s cand l := if_neg hanc
      rw [hpeers, forall_mem_append] at hsize
      rw [hpeers]
      obtain ⟨d', l', rfl, hd'⟩ := hrest.head
      exact outcomeOf_append (by simpa using hanc) hsize.1 hcount hc hd'
        fun hcount' hc' => ih (Nat.le_add_right _ _) hsize.2 hd' hcount' hc'

theorem peersFrom_sublist (cand : Hash) (l : List ChainEntry) :
    (peersFrom s cand l).Sublist (bluesOf l) := by
  induction l with
  | nil => exact .slnil
  | cons e l ih =>
    unfold peersFrom
    split
    · exact nil_sublist _
    · exact filter_sublist.append ih

/-- The loop misses no blue block that is not below the candidate. -/
theorem mem_peersFrom (hgrown : D.Grown bs) (hreach : Reaches D bs s.isDagAncestorOf)
    (hcand : cand ∈ bs) (hchain : SelectedChain D s.data h l) (hh : h ∈ bs) :
    x ∈ peersFrom s cand l ↔ x ∈ bluesOf l ∧ ¬ D.Below x cand := by
  induction hchain with
  | @genesis d hd hblues hsizes => simp [peersFrom, hblues, bluesOf]
  | @step h d l hne hreal hd hparent hblues hrest ih =>
    rw [bluesOf_cons, mem_append]
    unfold peersFrom
    split
    · -- the chain from here on is below the candidate
      rename_i hanc
      refine iff_of_false not_mem_nil fun ⟨hx, hnot⟩ => hnot (.inr ?_)
      have hpast := (SelectedChain.step hne hreal hd hparent hblues hrest).past x (by
        exact mem_append.mpr hx)
      exact hpast.below ((hreach h hh cand hcand).mp hanc)
    · rw [mem_append, ih (hgrown.mem_of_past hh hparent), mem_filter, or_and_right]
      refine or_congr (and_congr_right fun hx => ?_) Iff.rfl
      rw [decide_eq_true_iff, hreach x (hgrown.mem_of_past hh (hblues x hx)) cand hcand]

end Loops

/-! ## 4. A candidate -/

/-- The view of a new block in the course of its colouring, over the selected chain `l` of its
    selected parent. -/
structure InView (D : Dag Hash) (s : ConsensusStores) (bs : List Hash) (k : Nat) (b : Hash)
    (ctx : SahyadriConsensusData) (l : List ChainEntry) : Prop where
  chain : SelectedChain D s.data ctx.selectedParent l
  parent : ctx.selectedParent ∈ bs
  blues : ∃ ms, ctx.mergesetBlues = ctx.selectedParent :: ms ∧ ∀ x ∈ ms, x ∈ bs ∧
    D.Anticone ctx.selectedParent x
  exact : Exact D k ((b, ctx) :: l)

/-- A block of the mergeset whose turn it is. -/
structure NextIn (D : Dag Hash) (bs : List Hash) (ctx : SahyadriConsensusData) (cand : Hash) :
    Prop where
  mem : cand ∈ bs
  apart : D.Anticone ctx.selectedParent cand
  later : ∀ x ∈ ctx.mergesetBlues, x ≠ cand ∧ ¬ D.Past cand x

def peersOf (s : ConsensusStores)
    (ctx : SahyadriConsensusData) (l : List ChainEntry) (cand : Hash) :
    List Hash := ctx.mergesetBlues.filter (¬ s.isDagAncestorOf · cand) ++ peersFrom s cand l

def foundSize (l : List ChainEntry) (x : Hash) : KType := (sizeIn l x).getD 0

section View

variable {D : Dag Hash} {m : SahyadriConsensusManager} {s : ConsensusStores} {bs : List Hash}
  {b : Hash} {ctx : SahyadriConsensusData} {l : List ChainEntry} {cand : Hash} {k : Nat} {x : Hash}

theorem Exact.foundSize_eq (h : Exact D k l) (hx : x ∈ bluesOf l) :
    foundSize l x = UInt16.ofNat (strangers D.Anticone (bluesIn l) x).card := by
  unfold foundSize
  rw [h.size x hx, Option.getD_some]

section

variable (h : InView D s bs k b ctx l)

include h

theorem InView.blue_earlier (hcand : NextIn D bs ctx cand) :
    ∀ x ∈ bluesOf ((b, ctx) :: l), x ≠ cand ∧ ¬ D.Past cand x := by
  intro x hx
  rcases mem_append.mp hx with hx | hx
  · exact hcand.later x hx
  · have hpast := h.chain.past x hx
    exact ⟨fun he => hcand.apart.2.2 (he ▸ hpast), fun hc => hcand.apart.2.2 (hc.trans hpast)⟩

theorem InView.not_blue (hcand : NextIn D bs ctx cand) : cand ∉ bluesIn ((b, ctx) :: l) :=
  fun hm => (h.blue_earlier hcand cand (mem_toFinset.mp hm)).1 rfl

theorem InView.mem_of_blue (hgrown : D.Grown bs) :
    ∀ x ∈ bluesOf ((b, ctx) :: l), x ∈ bs := by
  intro x hx
  obtain ⟨ms, hms, hmem⟩ := h.blues
  rw [bluesOf_cons, hms] at hx
  rcases mem_append.mp hx with hx | hx
  · rcases mem_cons.mp hx with rfl | hx
    · exact h.parent
    · exact (hmem x hx).1
  · exact hgrown.mem_of_past h.parent (h.chain.past x hx)

/-- **The blue blocks looked at are those in the candidate's anticone**, each once. -/
theorem InView.peersOf_spec (hgrown : D.Grown bs) (hreach : Reaches D bs s.isDagAncestorOf)
    (hcand : NextIn D bs ctx cand) :
    (peersOf s ctx l cand).Nodup ∧ (peersOf s ctx l cand).toFinset =
        strangers D.Anticone (bluesIn ((b, ctx) :: l)) cand := by
  have hsub : (peersOf s ctx l cand).Sublist (bluesOf ((b, ctx) :: l)) := by
    exact filter_sublist.append (peersFrom_sublist cand l)
  refine ⟨h.exact.nodup.sublist hsub, ?_⟩
  ext x
  rw [mem_toFinset, mem_strangers, mem_toFinset]
  have hmem : x ∈ peersOf s ctx l cand ↔ x ∈ bluesOf ((b, ctx) :: l) ∧ ¬ D.Below x cand := by
    unfold peersOf
    rw [bluesOf_cons, mem_append, mem_append, mem_peersFrom hgrown hreach hcand.mem h.chain
      h.parent, mem_filter, or_and_right]
    refine or_congr (and_congr_right fun hx => ?_) Iff.rfl
    have hxb := h.mem_of_blue hgrown x (by rw [bluesOf_cons]; exact mem_append_left _ hx)
    rw [decide_eq_true_iff, hreach x hxb cand hcand.mem]
  rw [hmem]
  refine and_congr_right fun hx => ?_
  obtain ⟨hne, hnot⟩ := h.blue_earlier hcand x hx
  exact ⟨fun hb => ⟨Ne.symm hne, hnot, fun hp => hb (.inr hp)⟩, fun ha hb => hb.elim hne ha.2.2⟩

end

theorem Candidate.lookup_extend (sizeOf : Hash → KType)
    (c : Candidate) (qs : List Hash) (x : Hash) : (c.extend sizeOf qs).bluesAnticoneSizes.lookup x =
      if x ∈ qs then some (sizeOf x) else c.bluesAnticoneSizes.lookup x := by
  have hfold : (c.extend sizeOf qs).bluesAnticoneSizes =
      qs.foldl (fun t x => t.insert x (sizeOf x)) c.bluesAnticoneSizes :=
    (foldl_hom bluesAnticoneSizes fun _ _ => rfl).symm
  have hlookup : (qs.foldl (fun t x => t.insert (id x) (sizeOf x)) c.bluesAnticoneSizes).lookup x =
      if x ∈ qs.map id then some (sizeOf x) else c.bluesAnticoneSizes.lookup x :=
    lookup_foldl_insert (fun a _ he => by rw [← he]; rfl) _
  rw [map_id] at hlookup
  rw [hfold]
  exact hlookup

theorem lookup_addBlue (sizeOf : Hash → KType)
    (d : SahyadriConsensusData) (qs : List Hash) (n : KType) (x : Hash) :
    (d.addBlue cand n (extend sizeOf ⟨∅, 0⟩ qs).bluesAnticoneSizes).bluesAnticoneSizes.lookup x =
      if x ∈ qs then some (sizeOf x + 1) else if x = cand then some n
        else d.bluesAnticoneSizes.lookup x := by
  have hfound : ∀ y, (extend sizeOf ⟨∅, 0⟩ qs).bluesAnticoneSizes.lookup y =
      if y ∈ qs then some (sizeOf y) else none := fun y => lookup_extend sizeOf ⟨∅, 0⟩ qs y
  have hkeys : x ∈ (extend sizeOf ⟨∅, 0⟩ qs).bluesAnticoneSizes.pairs.map Prod.fst ↔ x ∈ qs := by
    rw [map_fst_pairs, ← AList.mem_keys, ← AList.lookup_isSome, hfound]
    split <;> simp_all
  unfold SahyadriConsensusData.addBlue
  rw [lookup_foldl_insert (v := sizeOf x + 1), if_congr hkeys rfl rfl]
  · by_cases hx : x = cand
    · rw [hx, AList.lookup_insert, if_pos rfl]
    · rw [AList.lookup_insert_ne hx, if_neg hx]
  · rintro ⟨y, v⟩ he rfl
    have hv := mem_pairs.mp he
    rw [hfound] at hv
    split at hv
    · rw [Option.some.inj hv]
    · cases hv

theorem bluesOf_addBlue_perm (n : KType) (sizes : Table Hash KType) :
    (bluesOf ((b, ctx.addBlue cand n sizes) :: l)).Perm (cand :: bluesOf ((b, ctx) :: l)) := by
  have hblues : (ctx.addBlue cand n sizes).mergesetBlues = ctx.mergesetBlues ++ [cand] := rfl
  rw [bluesOf_cons, bluesOf_cons, hblues, append_assoc]
  exact perm_middle

theorem bluesOf_addBlue (n : KType) (sizes : Table Hash KType) :
    bluesIn ((b, ctx.addBlue cand n sizes) :: l) = insert cand (bluesIn ((b, ctx) :: l)) := by
  rw [bluesIn, toFinset_eq_of_perm _ _ (bluesOf_addBlue_perm n sizes), toFinset_cons]

/-- The shortcut: `k` blue blocks merged already are in the anticone of the selected parent. -/
theorem InView.not_cluster_of_full (h : InView D s bs k b ctx l) (hcand : NextIn D bs ctx cand)
    (hk : k < 65535) (hfull : ctx.mergesetBlues.length % 2 ^ 16 = k + 1) :
    ¬ KCluster D.Anticone k (insert cand (bluesIn ((b, ctx) :: l))) := by
  obtain ⟨ms, hms, hmem⟩ := h.blues
  have hnd : ms.Nodup := by
    have := h.exact.nodup
    rw [bluesOf_cons, hms] at this
    exact (nodup_cons.mp (nodup_append.mp this).1).2
  have hsub : ms.toFinset ⊆ strangers D.Anticone (bluesIn ((b, ctx) :: l)) ctx.selectedParent := by
    intro x hx
    have hx := mem_toFinset.mp hx
    refine mem_strangers.mpr ⟨mem_toFinset.mpr ?_, (hmem x hx).2⟩
    rw [bluesOf_cons, hms]
    exact mem_append_left _ (mem_cons_of_mem _ hx)
  have hlen := Finset.card_le_card hsub
  rw [toFinset_card_of_nodup hnd] at hlen
  have hspv : ctx.selectedParent ∈ bluesIn ((b, ctx) :: l) := by
    rw [mem_toFinset, bluesOf_cons, hms]
    exact mem_append_left _ mem_cons_self
  have hspk := h.exact.cluster hk _ hspv
  rw [hms, length_cons, Nat.mod_eq_of_lt (by omega)] at hfull
  intro hcl
  have := hcl _ (Finset.mem_insert_of_mem hspv)
  rw [card_strangers_insert (h.not_blue hcand) hcand.apart] at this
  omega

variable (hgrown : D.Grown bs) (hreach : Reaches D bs s.isDagAncestorOf)

include hgrown hreach

/-- **With a new blue block the sizes are exact again.** -/
theorem InView.addBlue (h : InView D s bs k b ctx l) (hcand : NextIn D bs ctx cand)
    (hcluster : k < 65535 → KCluster D.Anticone k (insert cand (bluesIn ((b, ctx) :: l))))
    {n : KType} (hn : n = UInt16.ofNat (peersOf s ctx l cand).length) :
    InView D s bs k b (ctx.addBlue cand n (extend (foundSize ((b, ctx) :: l)) ⟨∅, 0⟩
      (peersOf s ctx l cand)).bluesAnticoneSizes) l := by
  obtain ⟨hnd, hpeers⟩ := h.peersOf_spec hgrown hreach hcand
  obtain ⟨ms, hms, hmem⟩ := h.blues
  have hnew := h.not_blue hcand
  refine ⟨h.chain, h.parent, ⟨ms ++ [cand], ?_, ?_⟩, ?_, ?_, ?_⟩
  · show ctx.mergesetBlues ++ [cand] = _
    rw [hms]
    rfl
  · intro x hx
    rcases mem_append.mp hx with hx | hx
    · exact hmem x hx
    · rw [mem_singleton.mp hx]
      exact ⟨hcand.mem, hcand.apart⟩
  · exact (bluesOf_addBlue_perm _ _).nodup_iff.mpr
      (nodup_cons.mpr ⟨mt mem_toFinset.mpr hnew, h.exact.nodup⟩)
  · intro x hx
    rw [bluesOf_addBlue, sizeIn_cons, lookup_addBlue]
    have hmemPeers : x ∈ peersOf s ctx l cand ↔
        x ∈ strangers D.Anticone (bluesIn ((b, ctx) :: l)) cand := by
      rw [← hpeers, mem_toFinset]
    by_cases hp : x ∈ peersOf s ctx l cand
    · -- in the candidate's anticone: one more
      obtain ⟨hxv, hanti⟩ := mem_strangers.mp (hmemPeers.mp hp)
      rw [if_pos hp, Option.some_or, h.exact.foundSize_eq (mem_toFinset.mp hxv),
        card_strangers_insert hnew hanti.symm, UInt16.ofNat_add]
      rfl
    · rw [if_neg hp]
      by_cases hx' : x = cand
      · subst hx'
        rw [if_pos rfl, Option.some_or, hn, strangers_insert_self fun ha => ha.1 rfl, ← hpeers,
          toFinset_card_of_nodup hnd]
      · have hxv : x ∈ bluesOf ((b, ctx) :: l) :=
          (mem_cons.mp ((bluesOf_addBlue_perm _ _).mem_iff.mp hx)).resolve_left hx'
        have hnot : ¬ D.Anticone x cand := fun ha =>
          hp (hmemPeers.mpr (mem_strangers.mpr ⟨mem_toFinset.mpr hxv, ha.symm⟩))
        rw [if_neg hx', strangers_insert_of_not hnot, ← sizeIn_cons (b, ctx) l x]
        exact h.exact.size x hxv
  · rw [bluesOf_addBlue]
    exact hcluster

variable {fuel : Nat} (hg : m.genesisHash = D.genesis)

include hg

section

variable (h : InView D s bs m.k.toNat b ctx l) (hcand : NextIn D bs ctx cand)

include h hcand

theorem InView.peer_size (hfuel : l.length ≤ fuel) (hx : x ∈ peersOf s ctx l cand) :
    m.blueAnticoneSize s fuel x ctx = .ok (foundSize ((b, ctx) :: l) x) ∧
    foundSize ((b, ctx) :: l) x ≤ m.k ∧ (m.k.toNat < 65535 → (foundSize ((b, ctx) :: l) x).toNat =
        (strangers D.Anticone (bluesIn ((b, ctx) :: l)) x).card) := by
  have hxs : x ∈ strangers D.Anticone (bluesIn ((b, ctx) :: l)) cand := by
    rw [← (h.peersOf_spec hgrown hreach hcand).2]
    exact mem_toFinset.mpr hx
  have hxv := mem_toFinset.mp (mem_strangers.mp hxs).1
  have hfound := h.exact.foundSize_eq hxv
  have hcard : m.k.toNat < 65535 → (foundSize ((b, ctx) :: l) x).toNat =
      (strangers D.Anticone (bluesIn ((b, ctx) :: l)) x).card := fun hk => by
    have := h.exact.cluster hk x (mem_strangers.mp hxs).1
    rw [hfound, UInt16.toNat_ofNat', Nat.mod_eq_of_lt (by omega)]
  refine ⟨blueAnticoneSize_ok hg h.chain (by rw [hfound]; exact h.exact.size x hxv) hfuel,
    ?_, hcard⟩
  rw [UInt16.le_iff_toNat_le]
  by_cases hk : m.k.toNat < 65535
  · rw [hcard hk]
    exact h.exact.cluster hk x (mem_strangers.mp hxs).1
  · have := (foundSize ((b, ctx) :: l) x).toNat_lt
    omega

/-- Nothing is found against a candidate exactly when the blue blocks stay a `k`-cluster with it. -/
theorem InView.admits_iff (hk : m.k.toNat < 65535) :
    Admits m.k (foundSize ((b, ctx) :: l)) 0 (peersOf s ctx l cand) ↔
      KCluster D.Anticone m.k.toNat (insert cand (bluesIn ((b, ctx) :: l))) := by
  obtain ⟨hnd, hpeers⟩ := h.peersOf_spec hgrown hreach hcand
  rw [kCluster_insert_iff Dag.Anticone.symm (fun ha => ha.1 rfl) (h.not_blue hcand)
    (h.exact.cluster hk), ← hpeers, toFinset_card_of_nodup hnd]
  unfold Admits
  rw [zero_add, imp_iff_right hk]
  refine and_congr_right fun _ => ?_
  constructor
  · intro hall x hx
    have hx := mem_toFinset.mp hx
    obtain ⟨_, hle, hcard⟩ := h.peer_size hgrown hreach hg hcand le_rfl hx
    rw [← hcard hk]
    exact lt_of_le_of_ne (UInt16.le_iff_toNat_le.mp hle) fun he =>
      hall x hx (UInt16.toNat_inj.mp he)
  · intro hall x hx hfull
    have hlt := hall x (mem_toFinset.mpr hx)
    rw [← (h.peer_size hgrown hreach hg hcand le_rfl hx).2.2 hk, hfull] at hlt
    exact absurd hlt (lt_irrefl _)

/-- **A candidate is blue exactly when the blue blocks stay a `k`-cluster with it**, the largest `k`
    apart. -/
theorem InView.checkBlueCandidate_ok (hfuel : l.length < fuel) :
    (∃ n sizes, m.checkBlueCandidate s fuel ctx cand = .ok (.blue n sizes) ∧
      InView D s bs m.k.toNat b (ctx.addBlue cand n sizes) l ∧ (m.k.toNat < 65535 →
        KCluster D.Anticone m.k.toNat (insert cand (bluesIn ((b, ctx) :: l))))) ∨
    m.checkBlueCandidate s fuel ctx cand = .ok .red ∧ (m.k.toNat < 65535 →
        ¬ KCluster D.Anticone m.k.toNat (insert cand (bluesIn ((b, ctx) :: l)))) := by
  have hsize : ∀ x ∈ peersOf s ctx l cand,
      m.blueAnticoneSize s fuel x ctx = .ok (foundSize ((b, ctx) :: l) x) ∧
        foundSize ((b, ctx) :: l) x ≤ m.k := fun x hx => by
    obtain ⟨h1, h2, _⟩ := h.peer_size hgrown hreach hg hcand (le_of_lt hfuel) hx
    exact ⟨h1, h2⟩
  -- the loop, from the new block down the chain
  have hloop : outcomeOf m.k (foundSize ((b, ctx) :: l)) 0 ⟨∅, 0⟩ (peersOf s ctx l cand)
      (m.checkLoop s fuel ctx cand fuel none ctx ⟨∅, 0⟩) := by
    obtain ⟨steps, rfl⟩ := Nat.exists_eq_add_of_lt hfuel
    have hgen : s.isDagAncestorOf D.genesis cand = true :=
      (hreach _ hgrown.genesis_mem cand hcand.mem).mpr (hgrown.genesis_below hcand.mem)
    obtain ⟨d, l', hl, hd⟩ := h.chain.head
    refine outcomeOf_append rfl (fun x hx => hsize x (mem_append_left _ hx)) rfl
      (fun _ => Nat.zero_le _) hd fun hcount' hc' => ?_
    exact checkLoop_ok hgen h.chain (Nat.le_add_right _ _)
      (fun x hx => hsize x (mem_append_right _ hx)) hd hcount' hc'
  unfold checkBlueCandidate
  by_cases hfull : UInt16.ofNat ctx.mergesetBlues.length = m.k + 1
  · refine .inr ⟨if_pos hfull, fun hk => h.not_cluster_of_full hcand hk ?_⟩
    have hlen := congrArg UInt16.toNat hfull
    rwa [UInt16.toNat_ofNat', UInt16.toNat_add, UInt16.toNat_one,
      Nat.mod_eq_of_lt (a := _ + 1) (by omega)] at hlen
  · rw [if_neg hfull]
    by_cases hadm : Admits m.k (foundSize ((b, ctx) :: l)) 0 (peersOf s ctx l cand)
    · have hcl : m.k.toNat < 65535 → KCluster D.Anticone m.k.toNat
          (insert cand (bluesIn ((b, ctx) :: l))) :=
        fun hk => (h.admits_iff hgrown hreach hg hcand hk).mp hadm
      have hzero : (⟨∅, 0⟩ : Candidate).blueAnticoneSize = UInt16.ofNat 0 := rfl
      refine .inl ⟨_, _, hloop.1 hadm, h.addBlue hgrown hreach hcand hcl ?_, hcl⟩
      rw [size_extend hzero, zero_add]
    · exact .inr ⟨hloop.2 hadm, fun hk => mt (h.admits_iff hgrown hreach hg hcand hk).mpr hadm⟩

end

/-- **The colouring takes the blue blocks greedily**, in the order of the mergeset, the largest `k`
    apart; every block of the mergeset gets a colour. -/
theorem InView.colorAll_ok (hfuel : l.length < fuel) {cs : List Hash} :
    ∀ {ctx : SahyadriConsensusData}, InView D s bs m.k.toNat b ctx l →
    (∀ c ∈ cs, NextIn D bs ctx c) → cs.Pairwise (fun x y => x ≠ y ∧ ¬ D.Past y x) →
      ∃ d blues reds, m.colorAll s fuel cs ctx = .ok d ∧ InView D s bs m.k.toNat b d l ∧
        d.selectedParent = ctx.selectedParent ∧ d.mergesetBlues = ctx.mergesetBlues ++ blues ∧
        blues.Sublist cs ∧
        (m.k.toNat < 65535 → blues = greedy D.Anticone m.k.toNat (bluesIn ((b, ctx) :: l)) cs) ∧
        d.mergesetReds = ctx.mergesetReds ++ reds ∧ reds.Sublist cs ∧ (blues ++ reds).Perm cs := by
  induction cs with
  | nil =>
    intro ctx h _ _
    exact ⟨ctx, [], [], rfl, h, rfl, (append_nil _).symm, .slnil, fun _ => rfl, (append_nil _).symm,
      .slnil, .refl _⟩
  | cons c cs ih =>
    intro ctx h hnext hordered
    obtain ⟨hc, hrest⟩ := forall_mem_cons.mp hnext
    obtain ⟨hcfirst, hordered⟩ := pairwise_cons.mp hordered
    rcases h.checkBlueCandidate_ok hgrown hreach hg hc hfuel with
      ⟨n, sizes, hcheck, hview, hcl⟩ | ⟨hcheck, hcl⟩
    · have hnext' : ∀ c' ∈ cs, NextIn D bs (ctx.addBlue c n sizes) c' := fun c' hc' => by
        refine ⟨(hrest c' hc').mem, (hrest c' hc').apart, fun x hx => ?_⟩
        rcases mem_append.mp hx with hx | hx
        · exact (hrest c' hc').later x hx
        · rw [mem_singleton.mp hx]
          exact hcfirst c' hc'
      obtain ⟨d, blues, reds, hd, hdv, hsp, hblues, hbsub, hgreedy, hreds, hsub, hperm⟩ :=
        ih hview hnext' hordered
      refine ⟨d, c :: blues, reds, ?_, hdv, hsp, ?_, hbsub.cons_cons c, fun hk => ?_, hreds,
        hsub.cons c, hperm.cons c⟩
      · unfold colorAll
        rw [hcheck]
        exact hd
      · rw [hblues]
        exact append_assoc _ _ _
      · rw [greedy_cons_of (hcl hk), hgreedy hk, bluesOf_addBlue]
    · have hview : InView D s bs m.k.toNat b (ctx.addRed c) l :=
        ⟨h.chain, h.parent, h.blues, h.exact.nodup, h.exact.size, h.exact.cluster⟩
      have hnext' : ∀ c' ∈ cs, NextIn D bs (ctx.addRed c) c' := fun c' hc' =>
        ⟨(hrest c' hc').mem, (hrest c' hc').apart, (hrest c' hc').later⟩
      obtain ⟨d, blues, reds, hd, hdv, hsp, hblues, hbsub, hgreedy, hreds, hsub, hperm⟩ :=
        ih hview hnext' hordered
      refine ⟨d, blues, c :: reds, ?_, hdv, hsp, hblues, hbsub.cons c, fun hk => ?_, ?_,
        hsub.cons_cons c, perm_middle.trans (hperm.cons c)⟩
      · unfold colorAll
        rw [hcheck]
        exact hd
      · rw [greedy_cons_not (hcl hk)]
        exact hgreedy hk
      · rw [hreds]
        exact append_assoc _ _ _

end View

end Sahyadri.Consensus
