import Mathlib

/-!
# Intrusive doubly linked lists

A doubly linked list threaded through nodes that live elsewhere: every node `a` has a `prev` and a
`next`, and a list is delimited by two sentinels that are nodes themselves. Nothing is said about
where the two fields are stored, so a memory layout takes part only through the link functions it
induces.

`IsList l h t xs` says that the links represent the sequence `xs` between the sentinels `h` and `t`:
the `next` chain from `h` visits `xs` and arrives at `t`, and the `prev` chain is its reverse. The
operations come with one theorem each: inserting before a node, unlinking a member, and walking
along the `next` chain. `IsList.congr` is the frame rule: only the links of the sentinels and of the
members matter.
-/

/-- The link fields of all nodes. -/
@[ext] structure Links (A : Type) where
  /-- The node in front. -/
  prev : A → A
  /-- The node behind. -/
  next : A → A

namespace Links

variable {A : Type}

/-- The `next` chain from `a` visits `xs` and arrives at `b`, and the `prev` chain runs back. -/
def Path (l : Links A) : A → List A → A → Prop
  | a, [], b => l.next a = b ∧ l.prev b = a
  | a, x :: xs, b => l.next a = x ∧ l.prev x = a ∧ Path l x xs b

@[simp] theorem path_nil {l : Links A} {a b : A} :
    Path l a [] b ↔ l.next a = b ∧ l.prev b = a := Iff.rfl

@[simp] theorem path_cons {l : Links A} {a x b : A} {xs : List A} :
    Path l a (x :: xs) b ↔ l.next a = x ∧ l.prev x = a ∧ Path l x xs b := Iff.rfl

/-- A path splits at each of its inner nodes. -/
theorem path_append {l : Links A} {a y b : A} {xs ys : List A} :
    Path l a (xs ++ y :: ys) b ↔ Path l a xs y ∧ Path l y ys b := by
  induction xs generalizing a with
  | nil => simp [and_assoc]
  | cons x xs ih => simp [ih, and_assoc]

/-- A path depends on the `next` links of its start and its inner nodes, and on the `prev` links of
its inner nodes and its end. -/
theorem Path.congr {l l' : Links A} {a b : A} {xs : List A} (h : Path l a xs b)
    (hnext : ∀ x ∈ a :: xs, l'.next x = l.next x)
    (hprev : ∀ x ∈ xs ++ [b], l'.prev x = l.prev x) : Path l' a xs b := by
  induction xs generalizing a with
  | nil =>
    obtain ⟨h1, h2⟩ := h
    exact ⟨by rw [hnext a (by simp), h1], by rw [hprev b (by simp), h2]⟩
  | cons x xs ih =>
    obtain ⟨h1, h2, h3⟩ := h
    refine ⟨by rw [hnext a (by simp), h1], by rw [hprev x (by simp), h2], ih h3 ?_ ?_⟩
    · intro y hy
      exact hnext y (List.mem_cons_of_mem _ hy)
    · intro y hy
      exact hprev y (List.mem_cons_of_mem _ hy)

/-- The first node on a path of `xs` from some node to `b`. -/
def front (xs : List A) (b : A) : A := xs.headD b

/-- The last node on a path of `xs` from `a` to some node. -/
def back : A → List A → A
  | a, [] => a
  | _, x :: xs => back x xs

@[simp] theorem front_nil (b : A) : front [] b = b := rfl

@[simp] theorem front_cons (x : A) (xs : List A) (b : A) : front (x :: xs) b = x := rfl

theorem front_mem (xs : List A) (b : A) : front xs b ∈ xs ++ [b] := by
  cases xs <;> simp

theorem Path.next_eq {l : Links A} {a b : A} {xs : List A} (h : Path l a xs b) :
    l.next a = front xs b := by
  cases xs with
  | nil => exact h.1
  | cons x xs => exact h.1

theorem Path.prev_front {l : Links A} {a b : A} {xs : List A} (h : Path l a xs b) :
    l.prev (front xs b) = a := by
  cases xs with
  | nil => exact h.2
  | cons x xs => exact h.2.1

@[simp] theorem back_nil (a : A) : back a [] = a := rfl

theorem back_cons (a x : A) (xs : List A) : back a (x :: xs) = back x xs := rfl

theorem back_mem (a : A) (xs : List A) : back a xs ∈ a :: xs := by
  induction xs generalizing a with
  | nil => simp
  | cons x xs ih =>
    rw [back_cons]
    exact List.mem_cons_of_mem _ (ih x)

theorem Path.prev_eq {l : Links A} {a b : A} {xs : List A} (h : Path l a xs b) :
    l.prev b = back a xs := by
  induction xs generalizing a with
  | nil => exact h.2
  | cons x xs ih =>
    rw [back_cons]
    exact ih h.2.2

/-! ## Represented sequences -/

/-- The links represent the sequence `xs` between the sentinels `h` and `t`. -/
structure IsList (l : Links A) (h t : A) (xs : List A) : Prop where
  path : Path l h xs t
  nodup : (h :: t :: xs).Nodup

variable {l l' : Links A} {h t : A} {xs ys : List A}

theorem IsList.tail_notMem (hl : IsList l h t xs) : t ∉ xs := by
  have := hl.nodup
  simp only [List.nodup_cons] at this
  exact this.2.1

theorem IsList.nodup_members (hl : IsList l h t xs) : xs.Nodup := by
  have := hl.nodup
  simp only [List.nodup_cons] at this
  exact this.2.2

/-- The frame rule. -/
theorem IsList.congr (hl : IsList l h t xs) (hnext : ∀ x ∈ h :: xs, l'.next x = l.next x)
    (hprev : ∀ x ∈ xs ++ [t], l'.prev x = l.prev x) : IsList l' h t xs :=
  ⟨hl.path.congr hnext hprev, hl.nodup⟩

theorem isList_nil (hne : h ≠ t) (hn : l.next h = t) (hp : l.prev t = h) : IsList l h t [] :=
  ⟨⟨hn, hp⟩, by simpa using hne⟩

/-- The links determine the sequence. -/
theorem IsList.unique (hx : IsList l h t xs) (hy : IsList l h t ys) : xs = ys := by
  have key : ∀ (a : A) (xs ys : List A), Path l a xs t → Path l a ys t → t ∉ xs → t ∉ ys →
      xs = ys := by
    intro a xs
    induction xs generalizing a with
    | nil =>
      intro ys h1 h2 _ hty
      cases ys with
      | nil => rfl
      | cons y ys =>
        have : y = t := h2.1.symm.trans h1.1
        exact absurd (by simp [this]) hty
    | cons x xs ih =>
      intro ys h1 h2 htx hty
      cases ys with
      | nil =>
        have : x = t := h1.1.symm.trans h2.1
        exact absurd (by simp [this]) htx
      | cons y ys =>
        have hxy : x = y := h1.1.symm.trans h2.1
        subst hxy
        rw [ih x ys h1.2.2 h2.2.2 (fun hm ↦ htx (List.mem_cons_of_mem _ hm))
          (fun hm ↦ hty (List.mem_cons_of_mem _ hm))]
  exact key h xs ys hx.path hy.path hx.tail_notMem hy.tail_notMem

theorem IsList.next_head (hl : IsList l h t xs) : l.next h = front xs t := hl.path.next_eq

theorem IsList.prev_tail (hl : IsList l h t xs) : l.prev t = back h xs := hl.path.prev_eq

/-- The represented sequence is empty exactly when the sentinels are neighbours. -/
theorem IsList.next_head_eq_tail_iff (hl : IsList l h t xs) : l.next h = t ↔ xs = [] := by
  rw [hl.next_head]
  cases xs with
  | nil => simp
  | cons x xs =>
    have : x ≠ t := fun hx ↦ hl.tail_notMem (by simp [hx])
    simpa using this

/-! ## Insertion -/

/-- Link `e` in front of the node `b`. -/
def insertBefore [DecidableEq A] (l : Links A) (b e : A) : Links A where
  prev := Function.update (Function.update l.prev e (l.prev b)) b e
  next := Function.update (Function.update l.next e b) (l.prev b) e

variable [DecidableEq A]

/-- Inserting in front of the node that `ys`, or the tail, begins with. -/
theorem IsList.insertBefore {e : A} (hl : IsList l h t (xs ++ ys)) (he : e ∉ h :: t :: (xs ++ ys)) :
    IsList (l.insertBefore (front ys t) e) h t (xs ++ e :: ys) := by
  have hnd : (h :: t :: (xs ++ e :: ys)).Nodup := by
    have h1 := hl.nodup
    have hperm : (h :: t :: (xs ++ e :: ys)).Perm (e :: h :: t :: (xs ++ ys)) := by
      calc (h :: t :: (xs ++ e :: ys)).Perm (h :: t :: e :: (xs ++ ys)) :=
            (List.perm_middle.cons t).cons h
        _ |>.Perm (h :: e :: t :: (xs ++ ys)) := (List.Perm.swap e t _).cons h
        _ |>.Perm (e :: h :: t :: (xs ++ ys)) := List.Perm.swap e h _
    exact hperm.nodup_iff.mpr (List.nodup_cons.mpr ⟨he, h1⟩)
  refine ⟨?_, hnd⟩
  rw [path_append]
  simp only [List.nodup_cons, List.mem_cons, List.mem_append, not_or,
    List.nodup_append] at hnd he
  obtain ⟨⟨hht, hhx, -, hhy⟩, ⟨htx, -, hty⟩, hndx, ⟨hey, hndy⟩, hdis⟩ := hnd
  obtain ⟨heh, het, hex, -⟩ := he
  -- the inserted node sits between the end of `xs` and the front of `ys`
  have hpath : Path l h xs (front ys t) ∧ l.prev (front ys t) = back h xs ∧
      (∀ z zs, ys = z :: zs → Path l z zs t) := by
    cases ys with
    | nil =>
      have hp : Path l h xs t := by simpa using hl.path
      exact ⟨hp, hp.prev_eq, fun z zs hz ↦ by cases hz⟩
    | cons y ys =>
      have hp := path_append.mp hl.path
      refine ⟨hp.1, hp.1.prev_eq, fun z zs hz ↦ ?_⟩
      cases hz
      exact hp.2
  obtain ⟨hleft, hprev, hright⟩ := hpath
  have hbx : front ys t ∉ xs := by
    intro hm
    cases ys with
    | nil => exact htx hm
    | cons y ys => exact hdis _ hm y (by simp) rfl
  have hbe : front ys t ≠ e := by
    cases ys with
    | nil => exact fun h ↦ het h.symm
    | cons y ys => exact fun h ↦ hey (by simp [← h])
  have hbh : front ys t ≠ h := by
    cases ys with
    | nil => exact fun hb ↦ hht hb.symm
    | cons y ys => exact fun hb ↦ hhy (by simp [← hb])
  have hback : back h xs ∈ h :: xs := back_mem h xs
  have hbacke : back h xs ≠ e := by
    intro hb
    rw [hb, List.mem_cons] at hback
    exact hback.elim heh hex
  have hbackys : back h xs ∉ ys := by
    intro hm
    rcases List.mem_cons.mp hback with hb | hb
    · exact hhy (hb ▸ hm)
    · exact hdis _ hb _ (by simp [hm]) rfl
  constructor
  · -- from the head to the new node
    clear hndy hey hright
    have hstep : ∀ (a : A) (zs : List A), Path l a zs (front ys t) → (a :: zs).Nodup →
        a ≠ e → e ∉ zs → front ys t ∉ zs → back a zs = back h xs →
        Path (l.insertBefore (front ys t) e) a zs e := by
      intro a zs
      induction zs generalizing a with
      | nil =>
        intro _ _ hae _ _ hab
        refine ⟨?_, ?_⟩
        · simp only [Links.insertBefore, hprev]
          rw [← hab, back_nil, Function.update_self]
        · simp only [Links.insertBefore, hprev]
          rw [Function.update_of_ne hbe.symm, Function.update_self, ← hab, back_nil]
      | cons z zs ih =>
        intro hp hnd hae hez hbz hab
        obtain ⟨hp1, hp2, hp3⟩ := hp
        simp only [List.mem_cons, not_or] at hez hbz
        rw [List.nodup_cons] at hnd
        rw [back_cons] at hab
        have hane : a ≠ back h xs := by
          rw [← hab]
          intro ha
          exact hnd.1 (ha ▸ back_mem z zs)
        refine ⟨?_, ?_, ih z hp3 hnd.2 (Ne.symm hez.1) hez.2 hbz.2 hab⟩
        · simp only [Links.insertBefore, hprev]
          rw [Function.update_of_ne hane, Function.update_of_ne hae, hp1]
        · simp only [Links.insertBefore]
          rw [Function.update_of_ne (Ne.symm hbz.1), Function.update_of_ne (Ne.symm hez.1), hp2]
    exact hstep h xs hleft (List.nodup_cons.mpr ⟨hhx, hndx⟩) (Ne.symm heh) hex hbx rfl
  · -- from the new node to the tail
    cases ys with
    | nil =>
      refine ⟨?_, ?_⟩
      · simp only [Links.insertBefore, hprev]
        rw [Function.update_of_ne (Ne.symm hbacke), Function.update_self, front_nil]
      · simp only [Links.insertBefore, front_nil]
        rw [Function.update_self]
    | cons y ys =>
      simp only [front_cons] at hprev hbe ⊢
      refine ⟨?_, ?_, (hright y ys rfl).congr ?_ ?_⟩
      · simp only [Links.insertBefore, hprev]
        rw [Function.update_of_ne (Ne.symm hbacke), Function.update_self]
      · simp only [Links.insertBefore]
        rw [Function.update_self]
      · intro z hz
        simp only [Links.insertBefore, hprev]
        rw [Function.update_of_ne, Function.update_of_ne]
        · exact fun hze ↦ hey (hze ▸ hz)
        · exact fun hzb ↦ hbackys (hzb ▸ hz)
      · intro z hz
        simp only [Links.insertBefore]
        rw [Function.update_of_ne, Function.update_of_ne]
        · rintro rfl
          rcases List.mem_append.mp hz with hz | hz
          · exact hey (List.mem_cons_of_mem _ hz)
          · exact het (by simpa using hz)
        · rintro rfl
          rcases List.mem_append.mp hz with hz | hz
          · exact (List.nodup_cons.mp hndy).1 hz
          · exact hty (by simp at hz; simp [hz])

/-! ## Removal -/

/-- Unlink the node `x` from its neighbours. -/
def remove (l : Links A) (x : A) : Links A where
  prev := Function.update l.prev (l.next x) (l.prev x)
  next := Function.update l.next (l.prev x) (l.next x)

theorem IsList.remove {x : A} (hl : IsList l h t (xs ++ x :: ys)) :
    IsList (l.remove x) h t (xs ++ ys) := by
  have hnd := hl.nodup
  simp only [List.nodup_cons, List.mem_cons, List.mem_append, not_or, List.nodup_append] at hnd
  obtain ⟨⟨hht, hhx, hhx', hhy⟩, ⟨htx, htx', hty⟩, hndx, ⟨hxy, hndy⟩, hdis⟩ := hnd
  have hnd' : (h :: t :: (xs ++ ys)).Nodup := by
    simp only [List.nodup_cons, List.mem_cons, List.mem_append, not_or, List.nodup_append]
    exact ⟨⟨hht, hhx, hhy⟩, ⟨htx, hty⟩, hndx, hndy,
      fun a ha b hb ↦ hdis a ha b (Or.inr hb)⟩
  obtain ⟨hleft, hright⟩ := path_append.mp hl.path
  have hp : l.prev x = back h xs := hleft.prev_eq
  have hn : l.next x = front ys t := hright.next_eq
  refine ⟨?_, hnd'⟩
  have hfront : ∀ z ∈ xs, z ≠ front ys t := by
    intro z hz hzf
    cases ys with
    | nil =>
      rw [front_nil] at hzf
      exact htx (hzf ▸ hz)
    | cons y ys => exact hdis z hz y (by simp) hzf
  have hback : back h xs ∈ h :: xs := back_mem h xs
  -- the part in front of the removed node now ends at the node behind it
  have hstep : ∀ (a : A) (zs : List A), Path l a zs x → (a :: zs).Nodup →
      (∀ z ∈ zs, z ≠ front ys t) → back a zs = back h xs →
      Path (l.remove x) a zs (front ys t) := by
    intro a zs
    induction zs generalizing a with
    | nil =>
      intro hpa _ _ hab
      refine ⟨?_, ?_⟩
      · simp only [Links.remove, hp, hn]
        rw [← hab, back_nil, Function.update_self]
      · simp only [Links.remove, hn]
        rw [Function.update_self, hp, ← hab, back_nil]
    | cons z zs ih =>
      intro hpa hnda hz hab
      obtain ⟨h1, h2, h3⟩ := hpa
      rw [List.nodup_cons] at hnda
      rw [back_cons] at hab
      have hane : a ≠ back h xs := by
        rw [← hab]
        exact fun ha ↦ hnda.1 (ha ▸ back_mem z zs)
      refine ⟨?_, ?_, ih z h3 hnda.2 (fun w hw ↦ hz w (List.mem_cons_of_mem _ hw)) hab⟩
      · simp only [Links.remove, hp]
        rw [Function.update_of_ne hane, h1]
      · simp only [Links.remove, hn]
        rw [Function.update_of_ne (hz z (by simp)), h2]
  have hnew := hstep h xs hleft (List.nodup_cons.mpr ⟨hhx, hndx⟩) hfront rfl
  cases ys with
  | nil => simpa using hnew
  | cons y ys =>
    rw [path_append]
    refine ⟨hnew, hright.2.2.congr ?_ ?_⟩
    · intro z hz
      simp only [Links.remove, hp]
      rw [Function.update_of_ne]
      intro hzb
      rw [← hzb] at hback
      rcases List.mem_cons.mp hback with rfl | hzx
      · exact hhy hz
      · exact hdis z hzx z (Or.inr hz) rfl
    · intro z hz
      simp only [Links.remove, hn, front_cons]
      rw [Function.update_of_ne]
      rintro rfl
      rcases List.mem_append.mp hz with hz | hz
      · exact (List.nodup_cons.mp hndy).1 hz
      · exact hty (by simp at hz; simp [hz])

/-! ## Walking -/

/-- Follow the `next` chain from `a` until the tail or a node satisfying `p`; `none` when more than
`fuel` nodes were visited. -/
def find (l : Links A) (t : A) (p : A → Bool) : ℕ → A → Option (Option A)
  | 0, _ => none
  | fuel + 1, a =>
    if a = t then some none else if p a then some (some a) else find l t p fuel (l.next a)

theorem Path.find {a : A} {p : A → Bool} {fuel : ℕ} (hp : Path l a xs t) (ht : t ∉ xs)
    (hfuel : xs.length < fuel) : l.find t p fuel (front xs t) = some (xs.find? p) := by
  induction xs generalizing a fuel with
  | nil =>
    obtain ⟨fuel, rfl⟩ := Nat.exists_eq_add_of_lt hfuel
    simp [Links.find]
  | cons x xs ih =>
    obtain ⟨-, -, hp⟩ := hp
    cases fuel with
    | zero => simp at hfuel
    | succ fuel =>
      simp only [List.mem_cons, not_or] at ht
      rw [front_cons, Links.find, if_neg (Ne.symm ht.1), List.find?_cons]
      cases hpx : p x with
      | true => simp
      | false =>
        have hlen : xs.length < fuel := by simpa using hfuel
        simpa [hp.next_eq] using ih hp ht.2 hlen

/-- A walk that comes to an end has found the first member satisfying `p`. -/
theorem Path.find_eq {a : A} {p : A → Bool} {fuel : ℕ} {r : Option A} (hp : Path l a xs t)
    (ht : t ∉ xs) (h : l.find t p fuel (front xs t) = some r) : r = xs.find? p := by
  induction xs generalizing a fuel with
  | nil =>
    cases fuel with
    | zero => cases h
    | succ fuel =>
      rw [front_nil, Links.find, if_pos rfl] at h
      exact (Option.some.inj h).symm
  | cons x xs ih =>
    obtain ⟨-, -, hp⟩ := hp
    simp only [List.mem_cons, not_or] at ht
    cases fuel with
    | zero => cases h
    | succ fuel =>
      rw [front_cons, Links.find, if_neg (Ne.symm ht.1)] at h
      rw [List.find?_cons]
      cases hpx : p x with
      | true =>
        rw [if_pos hpx] at h
        exact (Option.some.inj h).symm
      | false =>
        rw [if_neg (by simp [hpx]), hp.next_eq] at h
        exact ih hp ht.2 h

theorem IsList.find_eq {p : A → Bool} {fuel : ℕ} {r : Option A} (hl : IsList l h t xs)
    (hfind : l.find t p fuel (l.next h) = some r) : r = xs.find? p := by
  rw [hl.next_head] at hfind
  exact hl.path.find_eq hl.tail_notMem hfind

/-- Walking a represented list finds the first member satisfying `p`. -/
theorem IsList.find {p : A → Bool} {fuel : ℕ} (hl : IsList l h t xs) (hfuel : xs.length < fuel) :
    l.find t p fuel (l.next h) = some (xs.find? p) := by
  rw [hl.next_head]
  exact hl.path.find hl.tail_notMem hfuel

end Links
