import Mathlib.Data.List.Basic
import Mathlib.Data.List.Forall2

namespace FluxServe

/-- A layer that attends: the KV that it gives a position, and what leaves it there, from the KV of
the positions that take part. `missing` stands for the KV of a position that has none. -/
structure AttentionLayer (H Kv : Type) where
  missing : Kv
  kv : Nat → H → Kv
  out : Nat → H → List Kv → H

namespace AttentionLayer

variable {H Kv Kv' : Type}

/-- The KV of tokens from a position on. -/
def newKv (l : AttentionLayer H Kv) (start : Nat) (hs : List H) : List Kv :=
  hs.mapIdx fun i h => l.kv (start+i) h

/-- What leaves a layer, and the new KV, of tokens after the positions of `past`. -/
def forward (l : AttentionLayer H Kv) (causal : Bool) (past : List Kv) (hs : List H) :
    List H × List Kv :=
  let new := l.newKv past.length hs
  let all := past ++ new
  (hs.mapIdx fun i h => l.out (past.length+i) h
    (if causal then all.take (past.length+i+1) else all),new)

@[simp] theorem newKv_length (l : AttentionLayer H Kv) (start : Nat) (hs : List H) :
    (l.newKv start hs).length = hs.length := by
  simp [newKv]

@[simp] theorem forward_length (l : AttentionLayer H Kv) (causal : Bool) (past : List Kv)
    (hs : List H) : (l.forward causal past hs).1.length = hs.length ∧
      (l.forward causal past hs).2.length = hs.length := by
  simp [forward]

theorem newKv_append (l : AttentionLayer H Kv) (start : Nat) (as bs : List H) :
    l.newKv start (as ++ bs) = l.newKv start as ++ l.newKv (start+as.length) bs := by
  simp only [newKv,List.mapIdx_append]
  congr 2
  funext i h
  congr 1
  omega

/-- Causal attention may be cut anywhere. -/
theorem forward_append (l : AttentionLayer H Kv) (past : List Kv) (as bs : List H) :
    l.forward true past (as ++ bs) =
      ((l.forward true past as).1 ++
          (l.forward true (past ++ (l.forward true past as).2) bs).1,
        (l.forward true past as).2 ++
          (l.forward true (past ++ (l.forward true past as).2) bs).2) := by
  simp only [forward,newKv_append,List.mapIdx_append,if_true,List.length_append,newKv_length,
    List.append_assoc]
  congr 2
  · rw [List.mapIdx_eq_mapIdx_iff]
    intro i hi
    congr 1
    rw [← List.append_assoc,List.take_append_of_le_length]
    rw [List.length_append,newKv_length]
    omega
  · rw [List.mapIdx_eq_mapIdx_iff]
    intro i hi
    have hshift : past.length+(i+as.length) = past.length+as.length+i := by omega
    rw [hshift]

/-- `l'` does with the images of the KV what `l` does. -/
structure Maps (f : Kv → Kv') (l : AttentionLayer H Kv) (l' : AttentionLayer H Kv') : Prop where
  missing : l'.missing = f l.missing
  kv : ∀ position h, l'.kv position h = f (l.kv position h)
  out : ∀ position h kvs, l'.out position h (kvs.map f) = l.out position h kvs

theorem Maps.forward {f : Kv → Kv'} {l : AttentionLayer H Kv} {l' : AttentionLayer H Kv'}
    (hl : Maps f l l') (causal : Bool) (past : List Kv) (hs : List H) :
    l'.forward causal (past.map f) hs =
      ((l.forward causal past hs).1,(l.forward causal past hs).2.map f) := by
  have hnew : l'.newKv past.length hs = (l.newKv past.length hs).map f := by
    rw [newKv,newKv,List.mapIdx_eq_iff]
    intro i
    rw [List.getElem?_map,List.getElem?_mapIdx,Option.map_map]
    congr 1
    funext h
    exact (hl.kv _ h).symm
  simp only [AttentionLayer.forward,List.length_map,hnew,← List.map_append]
  congr 1
  rw [List.mapIdx_eq_mapIdx_iff]
  intro i hi
  rw [← hl.out]
  cases causal with
  | false => rfl
  | true => rw [if_pos rfl,if_pos rfl,List.map_take]

end AttentionLayer

section Stack

variable {H Kv Kv' : Type}

/-- Tokens through all layers. The KV of a position has an entry for each layer. -/
def stackForward (causal : Bool) :
    List (AttentionLayer H Kv) → List (List Kv) → List H → List H × List (List Kv)
  | [],_,hs => (hs,hs.map fun _ => [])
  | l :: layers,past,hs =>
    let a := l.forward causal (past.map fun kv => kv.headD l.missing) hs
    let b := stackForward causal layers (past.map List.tail) a.1
    (b.1,List.zipWith List.cons a.2 b.2)

@[simp] theorem stackForward_length (causal : Bool) (layers : List (AttentionLayer H Kv))
    (past : List (List Kv)) (hs : List H) :
    (stackForward causal layers past hs).1.length = hs.length ∧
      (stackForward causal layers past hs).2.length = hs.length := by
  induction layers generalizing past hs with
  | nil => simp [stackForward]
  | cons l layers ih => simp [stackForward,ih]

theorem zipWith_cons_head (missing : Kv) (as : List Kv) (bs : List (List Kv))
    (h : as.length = bs.length) :
    (List.zipWith List.cons as bs).map (fun kv => kv.headD missing) = as := by
  induction as generalizing bs with
  | nil => rfl
  | cons a as ih =>
    cases bs with
    | nil => cases h
    | cons b bs => rw [List.zipWith_cons_cons,List.map_cons,ih bs (Nat.succ.inj h),List.headD_cons]

theorem zipWith_cons_tail (as : List Kv) (bs : List (List Kv)) (h : as.length = bs.length) :
    (List.zipWith List.cons as bs).map List.tail = bs := by
  induction as generalizing bs with
  | nil => exact (List.eq_nil_of_length_eq_zero h.symm).symm
  | cons a as ih =>
    cases bs with
    | nil => cases h
    | cons b bs => simp [ih bs (Nat.succ.inj h)]

/-- The KV of a causal forward stands for the positions that it has gone through. -/
theorem stackForward_append (layers : List (AttentionLayer H Kv)) (past : List (List Kv))
    (as bs : List H) :
    stackForward true layers past (as ++ bs) =
      let a := stackForward true layers past as
      let b := stackForward true layers (past ++ a.2) bs
      (a.1 ++ b.1,a.2 ++ b.2) := by
  induction layers generalizing past as bs with
  | nil => simp [stackForward]
  | cons l layers ih =>
    have hlen := (l.forward_length true (past.map fun kv => kv.headD l.missing) as)
    have hrest := (stackForward_length true layers (past.map List.tail)
      (l.forward true (past.map fun kv => kv.headD l.missing) as).1).2
    have hzip := hlen.2.trans (hlen.1.symm.trans hrest.symm)
    simp only [stackForward,l.forward_append,ih,List.map_append]
    rw [zipWith_cons_head _ _ _ hzip,zipWith_cons_tail _ _ hzip,List.zipWith_append hzip]

theorem stackForward_map {f : Kv → Kv'} {layers : List (AttentionLayer H Kv)}
    {layers' : List (AttentionLayer H Kv')}
    (h : List.Forall₂ (AttentionLayer.Maps f) layers layers') (causal : Bool)
    (past : List (List Kv)) (hs : List H) :
    stackForward causal layers' (past.map (List.map f)) hs =
      ((stackForward causal layers past hs).1,
        (stackForward causal layers past hs).2.map (List.map f)) := by
  induction h generalizing past hs with
  | nil => simp [stackForward]
  | @cons l l' layers layers' hl hlayers ih =>
    have hheads : (past.map (List.map f)).map (fun kv => kv.headD l'.missing) =
        (past.map fun kv => kv.headD l.missing).map f := by
      rw [List.map_map,List.map_map]
      refine List.map_congr_left fun kv _ => ?_
      cases kv with
      | nil => exact hl.missing
      | cons head tail => rfl
    have htails : (past.map (List.map f)).map List.tail =
        (past.map List.tail).map (List.map f) := by
      rw [List.map_map,List.map_map]
      exact List.map_congr_left fun kv _ => List.map_tail.symm
    simp only [stackForward,hheads,htails,hl.forward,ih]
    congr 1
    rw [List.zipWith_map,List.map_zipWith]
    rfl

end Stack

end FluxServe
