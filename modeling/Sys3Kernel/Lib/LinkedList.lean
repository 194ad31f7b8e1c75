import Mathlib.Tactic

/-!
Doubly linked lists. A heap is given by the successor and the predecessor of
each node; a segment is a list of nodes that are linked to each other, with the
neighbours on both sides as parameters. A store is described by what the two
functions are afterwards on the nodes of the segment.
-/

namespace Sys3.LinkedList

variable {α : Type*} {nx pv nx' pv' : α → α} {p p' e e' x : α} {l l₁ l₂ : List α}

/-- The nodes `l` are linked, between `p` on the left and `e` on the right. -/
def Seg (nx pv : α → α) : α → List α → α → Prop
  | _, [], _ => True
  | p, a :: l, e => pv a = p ∧ nx a = l.headD e ∧ Seg nx pv a l e

theorem headD_append : (l₁ ++ l₂).headD e = l₁.headD (l₂.headD e) := by
  cases l₁ <;> rfl

theorem getLastD_append : (l₁ ++ l₂).getLastD p = l₂.getLastD (l₁.getLastD p) := by
  induction l₁ generalizing p with
  | nil => rfl
  | cons a l ih => rw [List.cons_append, List.getLastD_cons, List.getLastD_cons, ih]

theorem seg_append : Seg nx pv p (l₁ ++ l₂) e ↔
    Seg nx pv p l₁ (l₂.headD e) ∧ Seg nx pv (l₁.getLastD p) l₂ e := by
  induction l₁ generalizing p with
  | nil => simp [Seg]
  | cons a l ih =>
      simp only [List.cons_append, Seg, ih, headD_append, List.getLastD_cons]
      tauto

/-- A segment is what its own nodes say. -/
theorem Seg.congr (hs : Seg nx pv p l e) (hnx : ∀ a ∈ l, nx' a = nx a)
    (hpv : ∀ a ∈ l, pv' a = pv a) : Seg nx' pv' p l e := by
  induction l generalizing p with
  | nil => trivial
  | cons a l ih =>
      obtain ⟨hprev, hnext, hrest⟩ := hs
      refine ⟨?_, ?_, ih hrest (fun b hb => hnx b (List.mem_cons_of_mem a hb))
        fun b hb => hpv b (List.mem_cons_of_mem a hb)⟩
      · rw [hpv a List.mem_cons_self, hprev]
      · rw [hnx a List.mem_cons_self, hnext]

/-- The nodes `l` follow one another from `a` on, up to `e`. -/
def Chain (nx : α → α) : α → List α → α → Prop
  | a, [], e => a = e
  | a, b :: l, e => a = b ∧ Chain nx (nx b) l e

theorem Chain.congr {a : α} (h : Chain nx a l e) (hnx : ∀ b ∈ l, nx' b = nx b) :
    Chain nx' a l e := by
  induction l generalizing a with
  | nil => exact h
  | cons b l ih =>
      obtain ⟨rfl, hrest⟩ := h
      refine ⟨rfl, ?_⟩
      rw [hnx a List.mem_cons_self]
      exact ih hrest fun b hb => hnx b (List.mem_cons_of_mem a hb)

/-- The successors determine the nodes. -/
theorem Chain.unique {a : α} {l' : List α} (h : Chain nx a l e) (h' : Chain nx a l' e)
    (hl : e ∉ l) (hl' : e ∉ l') : l = l' := by
  induction l generalizing a l' with
  | nil =>
      cases l' with
      | nil => rfl
      | cons b l' => exact absurd (h.symm.trans h'.1 ▸ List.mem_cons_self) hl'
  | cons b l ih =>
      obtain ⟨rfl, hrest⟩ := h
      cases l' with
      | nil => exact absurd (h' ▸ List.mem_cons_self) hl
      | cons c l' =>
          obtain ⟨rfl, hrest'⟩ := h'
          rw [ih hrest hrest' (fun hm => hl (List.mem_cons_of_mem a hm))
            fun hm => hl' (List.mem_cons_of_mem a hm)]

theorem Seg.chain (hs : Seg nx pv p l e) : Chain nx (l.headD e) l e := by
  induction l generalizing p with
  | nil => rfl
  | cons a l ih =>
      obtain ⟨-, hnext, hrest⟩ := hs
      refine ⟨rfl, ?_⟩
      rw [hnext]
      exact ih hrest

/-- A chain through consecutive places. -/
theorem chain_map_range' {f : Nat → α} {j n : Nat}
    (hnx : ∀ i, j ≤ i → i < j + n → nx (f i) = f (i + 1)) (hlast : nx (f (j + n)) = e) :
    Chain nx (f j) ((List.range' j (n + 1)).map f) e := by
  induction n generalizing j with
  | zero => exact ⟨rfl, hlast⟩
  | succ n ih =>
      rw [List.range'_succ, List.map_cons]
      refine ⟨rfl, ?_⟩
      rw [hnx j (le_refl j) (by omega)]
      refine ih (fun i hle hlt => hnx i (by omega) (by omega)) ?_
      rw [Nat.add_right_comm, Nat.add_assoc]
      exact hlast

variable [DecidableEq α]

/-- The right neighbour changes with the successor of the last node. -/
theorem Seg.right (hs : Seg nx pv p l e) (hnd : l.Nodup)
    (hnx : ∀ a ∈ l, nx' a = if some a = l.getLast? then e' else nx a)
    (hpv : ∀ a ∈ l, pv' a = pv a) : Seg nx' pv' p l e' := by
  induction l generalizing p with
  | nil => trivial
  | cons a l ih =>
      obtain ⟨hprev, hnext, hrest⟩ := hs
      obtain ⟨hnot, hnd'⟩ := List.nodup_cons.mp hnd
      refine ⟨by rw [hpv a List.mem_cons_self, hprev], ?_, ih hrest hnd' ?_
        fun b hb => hpv b (List.mem_cons_of_mem a hb)⟩
      · rw [hnx a List.mem_cons_self]
        cases l with
        | nil => simp
        | cons b l =>
            have hne : some a ≠ (a :: b :: l).getLast? := by
              rw [List.getLast?_cons_cons]
              intro heq
              exact hnot (List.mem_of_getLast? heq.symm)
            rw [if_neg hne, hnext]
            rfl
      · intro b hb
        rw [hnx b (List.mem_cons_of_mem a hb)]
        cases l with
        | nil => simp at hb
        | cons c l => rw [List.getLast?_cons_cons]

/-- The left neighbour changes with the predecessor of the first node. -/
theorem Seg.left (hs : Seg nx pv p l e) (hnd : l.Nodup) (hnx : ∀ a ∈ l, nx' a = nx a)
    (hpv : ∀ a ∈ l, pv' a = if some a = l.head? then p' else pv a) : Seg nx' pv' p' l e := by
  cases l with
  | nil => trivial
  | cons a l =>
      obtain ⟨-, hnext, hrest⟩ := hs
      obtain ⟨hnot, -⟩ := List.nodup_cons.mp hnd
      refine ⟨?_, by rw [hnx a List.mem_cons_self, hnext], ?_⟩
      · rw [hpv a List.mem_cons_self, List.head?_cons, if_pos rfl]
      · refine hrest.congr (fun b hb => hnx b (List.mem_cons_of_mem a hb)) fun b hb => ?_
        rw [hpv b (List.mem_cons_of_mem a hb), List.head?_cons, if_neg]
        rintro ⟨rfl⟩
        exact hnot hb

/-- Linking a node between two parts of a segment. -/
theorem Seg.insert (hs : Seg nx pv p (l₁ ++ l₂) e) (hnd : (l₁ ++ l₂).Nodup)
    (hx : nx' x = l₂.headD e ∧ pv' x = l₁.getLastD p)
    (hnx : ∀ a ∈ l₁ ++ l₂, nx' a = if some a = l₁.getLast? then x else nx a)
    (hpv : ∀ a ∈ l₁ ++ l₂, pv' a = if some a = l₂.head? then x else pv a) :
    Seg nx' pv' p (l₁ ++ x :: l₂) e := by
  obtain ⟨hleft, hright⟩ := seg_append.mp hs
  obtain ⟨hnd₁, hnd₂, hdisj⟩ := List.nodup_append.mp hnd
  refine seg_append.mpr ⟨?_, hx.2, hx.1, ?_⟩
  · refine hleft.right hnd₁ (fun a ha => hnx a (List.mem_append_left l₂ ha)) fun a ha => ?_
    rw [hpv a (List.mem_append_left l₂ ha), if_neg]
    intro heq
    exact hdisj a ha a (List.mem_of_head? heq.symm) rfl
  · refine hright.left hnd₂ (fun a ha => ?_) fun a ha => hpv a (List.mem_append_right l₁ ha)
    rw [hnx a (List.mem_append_right l₁ ha), if_neg]
    intro heq
    exact hdisj a (List.mem_of_getLast? heq.symm) a ha rfl

/-- Unlinking a node. -/
theorem Seg.remove (hs : Seg nx pv p (l₁ ++ x :: l₂) e) (hnd : (l₁ ++ x :: l₂).Nodup)
    (hnx : ∀ a ∈ l₁ ++ l₂, nx' a = if some a = l₁.getLast? then l₂.headD e else nx a)
    (hpv : ∀ a ∈ l₁ ++ l₂, pv' a = if some a = l₂.head? then l₁.getLastD p else pv a) :
    Seg nx' pv' p (l₁ ++ l₂) e := by
  obtain ⟨hleft, -, -, hright⟩ := seg_append.mp hs
  obtain ⟨hnd₁, hnd₂, hdisj⟩ := List.nodup_append.mp hnd
  have hnd₂' := (List.nodup_cons.mp hnd₂).2
  refine seg_append.mpr ⟨?_, ?_⟩
  · refine hleft.right hnd₁ (fun a ha => hnx a (List.mem_append_left l₂ ha)) fun a ha => ?_
    rw [hpv a (List.mem_append_left l₂ ha), if_neg]
    intro heq
    exact hdisj a ha a (List.mem_cons_of_mem x (List.mem_of_head? heq.symm)) rfl
  · refine hright.left hnd₂' (fun a ha => ?_) fun a ha => hpv a (List.mem_append_right l₁ ha)
    rw [hnx a (List.mem_append_right l₁ ha), if_neg]
    intro heq
    exact hdisj a (List.mem_of_getLast? heq.symm) a (List.mem_cons_of_mem x ha) rfl

omit [DecidableEq α] in
/-- A copy of a segment at other nodes. -/
theorem Seg.map {β : Type*} {f : α → β} {nx' pv' : β → β} (hs : Seg nx pv p l e)
    (hnx : ∀ a ∈ l, nx' (f a) = f (nx a)) (hpv : ∀ a ∈ l, pv' (f a) = f (pv a)) :
    Seg nx' pv' (f p) (l.map f) (f e) := by
  induction l generalizing p with
  | nil => trivial
  | cons a l ih =>
      obtain ⟨hprev, hnext, hrest⟩ := hs
      refine ⟨by rw [hpv a List.mem_cons_self, hprev], ?_,
        ih hrest (fun b hb => hnx b (List.mem_cons_of_mem a hb))
          fun b hb => hpv b (List.mem_cons_of_mem a hb)⟩
      rw [hnx a List.mem_cons_self, hnext]
      cases l <;> rfl

end Sys3.LinkedList
