import Sahyadri.Did.Ledger
import Sahyadri.Smt.Map

/-!
# The root after a block's DID operations

* `computeBlockDidChanges_batch`: the function as one `update_many`.
-/

namespace Sahyadri.Did

open Lib Smt Core Action DidView List

/-! ## 1. One batch of changes -/

def didLeafChange (c : Crypto) (x : String × DidDocument) : H256 × Option H256 :=
  (didKeyHash c x.1, some (didContentHash c x.2))

section Tree

variable {S : Type} {c : Crypto} {N : NodeStore S} {states : DidStatesReader} {daaScore : UInt64}
  {network : Prefix} {verify : Verifier}
  {ord : IterOrder String DidDocument} {s : S} {root : H256} {ops : List DidOp}
  {touched : TouchedDids}

theorem writeDidLeaves_eq (root : H256) (l : List (String × DidDocument)) :
    writeDidLeaves c N root l =
      (updateMany N root (l.map (didLeafChange c))).mapErr DidError.smt := by
  induction l generalizing root with
  | nil => rfl
  | cons x l ih =>
    rw [writeDidLeaves, map_cons, updateMany, mapErr_bind]
    exact congrArg (_ >>= ·) (funext fun r => ih r)

theorem computeBlockDidChanges_batch :
    computeBlockDidChanges c N states daaScore network verify ord root ops s =
    writeBatch N .smt (didLeafChange c) (map Prod.snd) ord root
      (touchedDids c daaScore network verify (readDid c N states s root) ops) s := by
  rw [computeBlockDidChanges]
  simp only [writeDidLeaves_eq]
  rfl

/-- Node stores that answer alike give the same result. -/
theorem computeBlockDidChanges_sim {T : Type}
    {M : NodeStore T} {R : S → T → Prop} (H : StoreSim N M R) :
    Rel R (computeBlockDidChanges c N states daaScore network verify ord root ops)
      (computeBlockDidChanges c M states daaScore network verify ord root ops) := by
  intro s t hR
  have hread : readDid c N states s root = readDid c M states t root := funext fun did => by
    rw [readDid, readDid, get_sim H hR]
  rw [computeBlockDidChanges_batch, computeBlockDidChanges_batch, hread]
  exact writeBatch_sim ord H _ s t hR

/-! ## 2. The nodes a block puts -/

theorem readDid_recorded (r : Recorded S) :
    readDid c (recorded N) states r root = readDid c N states r.inner root := by
  funext did
  rw [readDid, readDid, get_sim (recorded_sim N) rfl]

def didPuts (c : Crypto) (N : NodeStore S) (states : DidStatesReader) (daaScore : UInt64)
    (network : Prefix) (verify : Verifier)
    (ord : IterOrder String DidDocument) (s : S) (root : H256) (ops : List DidOp) : List Node :=
  (computeBlockDidChanges c (recorded N) states daaScore network verify ord root ops ⟨s, []⟩).2.log

theorem didPuts_eq
    (h : touchedDids c daaScore network verify (readDid c N states s root) ops = .ok touched) :
    didPuts c N states daaScore network verify ord s root ops =
      putsOf N s root ((ord.order touched.pairs).map (didLeafChange c)) := by
  have h' : touchedDids c daaScore network verify (readDid c (recorded N) states ⟨s, []⟩ root) ops =
      .ok touched := by
    rw [readDid_recorded]
    exact h
  rw [didPuts, computeBlockDidChanges_batch, writeBatch_eq ord h', putsOf]

/-! ## 3. The iteration order -/

/-- Changed DIDs that share a tree key end up with the same content hash. -/
def DidAliasesAgree (c : Crypto) (v : DidView) : Prop :=
  ∀ a ∈ v.changed, ∀ b ∈ v.changed, didKeyHash c a = didKeyHash c b →
    (v.docs a).map (didContentHash c) = (v.docs b).map (didContentHash c)

/-- The operations can be applied: the DIDs of the well-formed ones can be read. -/
def DidsApplicable (c : Crypto) (network : Prefix)
    (read : String → Run DidError (Option DidDocument)) (ops : List DidOp) : Prop :=
  ∀ op ∈ ops, op.wellFormed c network = true → ∃ r, read op.did = .ok r

section Entries

variable {read : String → Run DidError (Option DidDocument)} {touched : TouchedDids}

section

variable (h : touchedDids c daaScore network verify read ops = .ok touched)

include h

theorem mem_touchedDids_pairs {x : String × DidDocument} : x ∈ touched.pairs ↔
      x.1 ∈ (run c daaScore network verify (baseDocs read) ops).changed ∧
        (run c daaScore network verify (baseDocs read) ops).docs x.1 = some x.2 := by
  obtain ⟨did, doc⟩ := x
  rw [Table.mem_pairs, (touchedDids_spec h).2 did]
  by_cases hm : did ∈ (run c daaScore network verify (baseDocs read) ops).changed
  · simp [hm]
  · simp [hm]

theorem exists_mem_touchedDids {did : String}
    (hd : did ∈ (run c daaScore network verify (baseDocs read) ops).changed) :
    ∃ doc, (did, doc) ∈ touched.pairs ∧
    (run c daaScore network verify (baseDocs read) ops).docs did = some doc := by
  obtain ⟨doc, hdoc⟩ := Option.ne_none_iff_exists'.mp ((tracksDids_empty.ops h).2.touched did hd)
  exact ⟨doc, (mem_touchedDids_pairs h).mpr ⟨hd, hdoc⟩, hdoc⟩

theorem consistent_touchedDids_iff : Consistent (touched.pairs.map (didLeafChange c)) ↔
      DidAliasesAgree c (run c daaScore network verify (baseDocs read) ops) := by
  constructor
  · intro hcons a ha b hb hab
    obtain ⟨da, hma, hda⟩ := exists_mem_touchedDids h ha
    obtain ⟨db, hmb, hdb⟩ := exists_mem_touchedDids h hb
    rw [hda, hdb]
    exact hcons _ (mem_map_of_mem hma) _ (mem_map_of_mem hmb) hab
  · intro hag x hx y hy hxy
    obtain ⟨p, hp, rfl⟩ := mem_map.mp hx
    obtain ⟨q, hq, rfl⟩ := mem_map.mp hy
    obtain ⟨hp1, hp2⟩ := (mem_touchedDids_pairs h).mp hp
    obtain ⟨hq1, hq2⟩ := (mem_touchedDids_pairs h).mp hq
    have hpq := hag p.1 hp1 q.1 hq1 hxy
    rw [hp2, hq2] at hpq
    exact hpq

end

end Entries

variable {𝒩 : Set Node}

/-- **The iteration order is irrelevant exactly when aliases agree**, if the operations can be
    applied at all. -/
theorem dids_order_iff (hN : N.Lawful (Node.hash c.sponge)) (hg : GoodNodes (Node.hash c.sponge) 𝒩)
    {t : Tree} (hroot : Rooted N (Node.hash c.sponge) 𝒩 s root t)
    (hlog : ∀ ord, ∀ n ∈ didPuts c N states daaScore network verify ord s root ops, n ∈ 𝒩) :
    (∀ ord₁ ord₂,
      (computeBlockDidChanges c N states daaScore network verify ord₁ root ops s).1.map Prod.fst =
      (computeBlockDidChanges c N states daaScore network verify ord₂ root ops s).1.map Prod.fst) ↔
      (DidsApplicable c network (readDid c N states s root) ops → DidAliasesAgree c
        (run c daaScore network verify (baseDocs (readDid c N states s root)) ops)) := by
  simp only [computeBlockDidChanges_batch]
  rw [writeBatch_order_iff hN hg hroot fun touched ht ord => didPuts_eq ht ▸ hlog ord]
  constructor
  · intro h ha
    obtain ⟨touched, ht⟩ := touchedDids_total daaScore verify ha
    exact (consistent_touchedDids_iff ht).mp (h touched ht)
  · intro h touched ht
    exact (consistent_touchedDids_iff ht).mpr (h (touchedDids_spec ht).1)

end Tree

end Sahyadri.Did
