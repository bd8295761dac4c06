import Sahyadri.Did.Changes

/-!
# What a block's operations do to the DID documents

* `DidView`: the current document of every DID, and the DIDs changed so far. An operation looks at
  the current document and leaves another one, or is skipped (`DidView.step`).
-/

namespace Sahyadri.Did

open Lib Smt Core Account List Function

/-- The documents, and which DIDs the block has changed. -/
structure DidView where
  docs : String → Option DidDocument
  changed : List String

section Step

variable (c : Crypto) (daaScore : UInt64) (network : Prefix) (verify : Verifier)

def DidView.step (v : DidView) (op : DidOp) : DidView :=
  if op.wellFormed c network then
    match op.outcome c daaScore verify (v.docs op.did) with
    | some doc => ⟨update v.docs op.did (some doc), v.changed ++ [op.did]⟩
    | none => v
  else v

def DidView.run (docs : String → Option DidDocument) (ops : List DidOp) : DidView :=
  ops.foldl (DidView.step c daaScore network verify) ⟨docs, []⟩

theorem DidView.changed_foldl (ops : List DidOp) (v : DidView) (did : String)
    (h : did ∈ (ops.foldl (DidView.step c daaScore network verify) v).changed) :
    did ∈ v.changed ∨ did ∈ ops.map DidOp.did := by
  induction ops generalizing v with
  | nil => exact .inl h
  | cons op ops ih =>
    rw [map_cons, mem_cons]
    rcases ih _ h with h | h
    · unfold DidView.step at h
      split at h
      · split at h
        · rcases mem_append.mp h with h | h
          · exact .inl h
          · exact .inr (.inl (mem_singleton.mp h))
        · exact .inl h
      · exact .inl h
    · exact .inr (.inr h)

end Step

theorem DidView.mem_of_changed {c : Crypto} {daaScore : UInt64} {network : Prefix}
    {verify : Verifier} {docs : String → Option DidDocument} {ops : List DidOp} {did : String}
    (h : did ∈ (DidView.run c daaScore network verify docs ops).changed) :
    did ∈ ops.map DidOp.did :=
  (DidView.changed_foldl c daaScore network verify ops _ did h).resolve_left not_mem_nil

section Follows

variable {c : Crypto} {daaScore : UInt64} {network : Prefix} {verify : Verifier}
  {read : String → Run DidError (Option DidDocument)}

def baseDocs (read : String → Run DidError (Option DidDocument)) (did : String) :
    Option DidDocument :=
  match read did with
  | .ok d => d
  | .error _ => none

/-- The map holds the changed DIDs, and over the documents read it is seen as the view. -/
structure TracksDids (read : String → Run DidError (Option DidDocument)) (t : TouchedDids)
    (v : DidView) : Prop where
  lookup : ∀ did, t.lookup did = if did ∈ v.changed then v.docs did else none
  untouched : ∀ did, did ∉ v.changed → v.docs did = baseDocs read did
  reads : ∀ did ∈ v.changed, ∃ r, read did = .ok r
  touched : ∀ did ∈ v.changed, v.docs did ≠ none

theorem tracksDids_empty : TracksDids read ∅ ⟨baseDocs read, []⟩ where
  lookup did := by simp
  untouched did _ := rfl
  reads did h := absurd h not_mem_nil
  touched did h := absurd h not_mem_nil

variable {t t' : TouchedDids} {v : DidView} {did : String} {cur r : Option DidDocument}

section

variable (h : TracksDids read t v) {op : DidOp}

include h

/-- What a lookup finds is the current document, and the DID can be read. -/
theorem TracksDids.lookup_eq (hl : lookupDid read t did = .ok cur) :
    cur = v.docs did ∧ ∃ r, read did = .ok r := by
  unfold lookupDid at hl
  by_cases hm : did ∈ v.changed
  · have hd := h.lookup did
    rw [if_pos hm] at hd
    obtain ⟨d, he⟩ := Option.ne_none_iff_exists'.mp (h.touched did hm)
    rw [hd, he] at hl
    cases hl
    exact ⟨he.symm, h.reads did hm⟩
  · have hd := h.lookup did
    rw [if_neg hm] at hd
    rw [hd] at hl
    have hr : read did = .ok cur := hl
    refine ⟨?_, cur, hr⟩
    rw [h.untouched did hm, baseDocs, hr]

theorem TracksDids.lookup_total (hr : read did = .ok r) :
    lookupDid read t did = .ok (v.docs did) := by
  unfold lookupDid
  by_cases hm : did ∈ v.changed
  · have hd := h.lookup did
    rw [if_pos hm] at hd
    obtain ⟨d, he⟩ := Option.ne_none_iff_exists'.mp (h.touched did hm)
    rw [hd, he]
    rfl
  · have hd := h.lookup did
    rw [if_neg hm] at hd
    rw [hd, hr, h.untouched did hm, baseDocs, hr]

theorem TracksDids.insert (doc : DidDocument) (hr : ∃ r, read did = .ok r) :
    TracksDids read (t.insert did doc) ⟨update v.docs did (some doc), v.changed ++ [did]⟩ where
  lookup q := by
    dsimp only
    by_cases hq : q = did
    · subst hq
      rw [AList.lookup_insert, if_pos (by simp), update_self]
    · rw [AList.lookup_insert_ne hq, h.lookup q]
      simp [hq]
  untouched q hq := by
    dsimp only at hq ⊢
    simp only [mem_append, mem_singleton, not_or] at hq
    rw [update_of_ne hq.2, h.untouched q hq.1]
  reads q hq := by
    rcases mem_append.mp hq with hq | hq
    · exact h.reads q hq
    · rw [mem_singleton.mp hq]
      exact hr
  touched q hq := by
    dsimp only at hq ⊢
    by_cases he : q = did
    · subst he
      rw [update_self]
      exact Option.some_ne_none _
    · rw [update_of_ne he]
      rcases mem_append.mp hq with hq | hq
      · exact h.touched q hq
      · exact absurd (mem_singleton.mp hq) he

/-- **One operation**: what had to be read could be read, and the map follows the view. -/
theorem TracksDids.applyDidOp (ht : applyDidOp c daaScore network verify read t op = .ok t') :
    (op.wellFormed c network = true → ∃ r, read op.did = .ok r) ∧
      TracksDids read t' (v.step c daaScore network verify op) := by
  unfold Did.applyDidOp at ht
  unfold DidView.step
  split at ht
  · rename_i hwf
    obtain ⟨cur, hl, ht⟩ := Run.bind_eq_ok.mp ht
    obtain ⟨rfl, hr⟩ := h.lookup_eq hl
    refine ⟨fun _ => hr, ?_⟩
    rw [if_pos hwf]
    cases ho : op.outcome c daaScore verify (v.docs op.did) with
    | none =>
      rw [ho] at ht
      cases ht
      exact h
    | some doc =>
      rw [ho] at ht
      cases ht
      exact h.insert doc hr
  · rename_i hwf
    cases ht
    rw [if_neg hwf]
    exact ⟨fun hw => absurd hw hwf, h⟩

theorem TracksDids.applyDidOp_total
    (hr : op.wellFormed c network = true → ∃ r, read op.did = .ok r) :
    ∃ t', Did.applyDidOp c daaScore network verify read t op = .ok t' := by
  unfold Did.applyDidOp
  split
  · rename_i hwf
    obtain ⟨r, hr⟩ := hr hwf
    rw [h.lookup_total hr, Run.ok_bind]
    split
    · exact ⟨_, rfl⟩
    · exact ⟨_, rfl⟩
  · exact ⟨t, rfl⟩

end

theorem TracksDids.ops : ∀ {ops : List DidOp} {t t' : TouchedDids} {v : DidView},
    TracksDids read t v → ops.foldlM (Did.applyDidOp c daaScore network verify read) t = .ok t' →
      (∀ op ∈ ops, op.wellFormed c network = true → ∃ r, read op.did = .ok r) ∧
        TracksDids read t' (ops.foldl (DidView.step c daaScore network verify) v)
  | [], t, t', v, h, ht => by
    cases ht
    exact ⟨forall_mem_nil _, h⟩
  | op :: ops, t, t', v, h, ht => by
    obtain ⟨t₁, h1, h2⟩ := Run.bind_eq_ok.mp ht
    obtain ⟨hr, k1⟩ := h.applyDidOp h1
    obtain ⟨hrs, k2⟩ := k1.ops h2
    exact ⟨forall_mem_cons.mpr ⟨hr, hrs⟩, k2⟩

variable {ops : List DidOp}

/-- **The map holds the documents of the changed DIDs.** -/
theorem touchedDids_spec (h : touchedDids c daaScore network verify read ops = .ok t) :
    (∀ op ∈ ops, op.wellFormed c network = true → ∃ r, read op.did = .ok r) ∧ ∀ did, t.lookup did =
        if did ∈ (DidView.run c daaScore network verify (baseDocs read) ops).changed then
          (DidView.run c daaScore network verify (baseDocs read) ops).docs did
        else none := by
  obtain ⟨hr, k⟩ := tracksDids_empty.ops h
  exact ⟨hr, k.lookup⟩

/-- **The map comes out** if the DIDs of all well-formed operations can be read. -/
theorem touchedDids_total (daaScore : UInt64) (verify : Verifier)
    (h : ∀ op ∈ ops, op.wellFormed c network = true → ∃ r, read op.did = .ok r) :
    ∃ t, touchedDids c daaScore network verify read ops = .ok t := by
  refine Run.kept_ok.foldlM (I := fun l t => (∀ op ∈ l, op.wellFormed c network = true →
    ∃ r, read op.did = .ok r) ∧ ∃ v, TracksDids read t v) (fun op l t hI => ?_)
    ⟨h, _, tracksDids_empty⟩
  obtain ⟨hall, v, h⟩ := hI
  obtain ⟨hr, hrs⟩ := forall_mem_cons.mp hall
  exact ⟨h.applyDidOp_total hr, fun t' ht => ⟨hrs, _, (h.applyDidOp ht).2⟩⟩

end Follows

end Sahyadri.Did
