import Mathlib
import GlowOS.Fs.CacheInv
import GlowOS.Fs.Path
import GlowOS.Fs.Persistence

/-!
# Walking through the directories

`search_file` opens and closes one directory after the other. Opening reads an inode that is not in
memory, closing drops it again, and what `inode_close` leaves behind stays linked. None of this
changes what the numbers stand for: `Walking` is the invariant that says so, relative to the state in
which the walk began.

The heap has to answer. `Env.Serves` asks for this as long as only so many requests were made, and
that no block comes back which is linked still.
-/

namespace GlowOS

open Bytes Program

/-! ## The heap -/

/-- The block is live, or `inode_close` left it linked. -/
def Fs.Used (s : Fs) (a : ℕ) : Prop := s.heap a ≠ none ∨ s.stale a = true

/-- At most as many blocks as there were requests are in use and were not so in `s`. -/
def Fs.Grown (s t : Fs) : Prop :=
  s.tick ≤ t.tick ∧ ∃ B : Finset ℕ, B.card ≤ t.tick - s.tick ∧ ∀ a, t.Used a → s.Used a ∨ a ∈ B

/-- The next `n` requests are answered, and not with a block that is linked still. -/
def Env.Serves (E : Env) (s : Fs) (n : ℕ) : Prop :=
  ∀ t : Fs, s.Grown t → t.tick < s.tick + n → ∀ k size, ∃ a,
    E.malloc t.tick t.heap t.stale k size = some a ∧ t.stale a = false

theorem Fs.Grown.refl (s : Fs) : s.Grown s :=
  ⟨Nat.le_refl _, ∅, Nat.zero_le _, fun _ ha ↦ Or.inl ha⟩

section Grown

variable {s t : Fs} {a : ℕ}

theorem Fs.Grown.alloc (h : s.Grown t) (a : ℕ) (k : Blk) : s.Grown (t.alloc a k) := by
  obtain ⟨hle, B, hB, hused⟩ := h
  refine ⟨Nat.le_succ_of_le hle, insert a B, ?_, fun b hb ↦ ?_⟩
  · have hcard := Finset.card_insert_le a B
    have htick : (t.alloc a k).tick = t.tick + 1 := rfl
    omega
  · by_cases hba : b = a
    · exact Or.inr (by simp [hba])
    · have hb' : t.Used b := by
        simpa [Fs.Used, Fs.alloc, hba] using hb
      exact (hused b hb').imp_right (Finset.mem_insert_of_mem)

theorem Fs.Grown.free (h : s.Grown t) (E : Env) (a : ℕ) : s.Grown (t.free E a) := by
  obtain ⟨hle, B, hB, hused⟩ := h
  refine ⟨Nat.le_succ_of_le hle, B, ?_, fun b hb ↦ hused b ?_⟩
  · have htick : (t.free E a).tick = t.tick + 1 := rfl
    omega
  · by_cases hba : b = a
    · exact hb.imp (fun hb ↦ absurd (by simp [Fs.free, hba]) hb) id
    · simpa [Fs.Used, Fs.free, hba] using hb

/-- What is given back and stays linked was live. -/
theorem Fs.Grown.close (h : s.Grown t) (E : Env) (hlive : t.heap a ≠ none) :
    s.Grown { t.free E a with stale := Function.update t.stale a true } := by
  obtain ⟨hle, B, hB, hused⟩ := h
  refine ⟨Nat.le_succ_of_le hle, B, ?_, fun b hb ↦ hused b ?_⟩
  · have htick : (t.free E a).tick = t.tick + 1 := rfl
    exact hB.trans (Nat.sub_le_sub_right (by rw [htick]; omega) _)
  · by_cases hba : b = a
    · exact Or.inl (hba ▸ hlive)
    · simpa [Fs.Used, Fs.free, hba] using hb

theorem Fs.Grown.congr {t' : Fs} (h : s.Grown t) (htick : t'.tick = t.tick)
    (hheap : t'.heap = t.heap) (hstale : t'.stale = t.stale) : s.Grown t' := by
  obtain ⟨hle, B, hB, hused⟩ := h
  refine ⟨by rwa [htick], B, by rwa [htick], fun b hb ↦ hused b ?_⟩
  rwa [Fs.Used, hheap, hstale] at hb

end Grown

/-! ## The inode of a number -/

section Current

variable {E : Env} {s t : Fs} {xs : List ℕ} {n a : ℕ}

theorem findOpen_of_inv (h : CacheInv s xs) (hlen : xs.length < walkFuel) (n : ℕ) :
    s.findOpen n = some (xs.find? fun a ↦ (s.inode a).iNo == n) := h.list.find hlen

/-- The number of an inode in memory stands for it. -/
theorem current_of_mem (h : CacheInv s xs) (hlen : xs.length < walkFuel) (ha : a ∈ xs)
    (hlive : s.heap a = some Blk.inode) (hno : (s.inode a).iNo = n) (hn : n < 4096) :
    s.findOpen n = some (some a) ∧ s.current E n = s.inode a := by
  have hfind := findOpen_of_inv h hlen n
  cases hf : xs.find? fun a ↦ (s.inode a).iNo == n with
  | none =>
    have hnot := List.find?_eq_none.mp hf a ha
    simp [hno] at hnot
  | some b =>
    rw [hf] at hfind
    obtain ⟨hb, hliveb, hnob⟩ := h.findOpen_some (Or.inl (by rw [userVaddrStart]; omega)) hfind
    obtain rfl := h.inj a ha b hb hlive hliveb (hno.trans hnob.symm)
    exact ⟨hfind, by rw [Fs.current, hfind]⟩

/-- A number without an inode in memory stands for its slot on the disk. -/
theorem current_of_not (h : CacheInv s xs) (hlen : xs.length < walkFuel) (hn : n < 4096)
    (hnot : ∀ a ∈ xs, s.heap a = some Blk.inode → (s.inode a).iNo ≠ n) :
    s.findOpen n = some none ∧ s.current E n = slot E s.disk n := by
  have hfind := findOpen_of_inv h hlen n
  cases hf : xs.find? fun a ↦ (s.inode a).iNo == n with
  | none =>
    rw [hf] at hfind
    exact ⟨hfind, by rw [Fs.current, hfind]⟩
  | some b =>
    rw [hf] at hfind
    obtain ⟨hb, hlive, hno⟩ := h.findOpen_some (Or.inl (by rw [userVaddrStart]; omega)) hfind
    exact absurd hno (hnot b hb hlive)

theorem Inode.Same.refl (i : Inode) : i.Same i := ⟨rfl, rfl, fun _ _ ↦ rfl⟩

theorem Inode.Same.blocks {i j : Inode} (h : i.Same j) (d : Image) : i.blocks d = j.blocks d := by
  funext k
  rw [Inode.blocks, Inode.blocks, h.2.2 12 (by decide)]
  by_cases hk : k < 12
  · rw [if_pos hk, if_pos hk, h.2.2 k (by omega)]
  · rw [if_neg hk, if_neg hk]

theorem Inode.Same.lookup {i j : Inode} (h : i.Same j) (d : Image) (name : List UInt8) :
    lookup d i name = lookup d j name := by
  rw [GlowOS.lookup, GlowOS.lookup, h.blocks d]

/-- The lists of two states stand for the same inodes: the members in memory agree, and a member that
one state alone has in memory agrees with the disk. -/
theorem current_same {ys : List ℕ} (hs : CacheInv s xs) (hlen : xs.length < walkFuel)
    (ht : CacheInv t ys) (hlen' : ys.length < walkFuel) (hdisk : t.disk = s.disk)
    (hout : ∀ a ∈ xs, s.heap a = some Blk.inode →
      (a ∈ ys ∧ t.heap a = some Blk.inode ∧ (t.inode a).Same (s.inode a)) ∨
        (∀ b ∈ ys, t.heap b = some Blk.inode → (t.inode b).iNo ≠ (s.inode a).iNo) ∧
          (slot E s.disk (s.inode a).iNo).Same (s.inode a))
    (hin : ∀ b ∈ ys, t.heap b = some Blk.inode →
      (∃ a ∈ xs, s.heap a = some Blk.inode ∧ (s.inode a).iNo = (t.inode b).iNo) ∨
        (t.inode b).Same (slot E s.disk (t.inode b).iNo)) (hn : n < 4096) :
    (t.current E n).Same (s.current E n) := by
  by_cases hmem : ∃ a ∈ xs, s.heap a = some Blk.inode ∧ (s.inode a).iNo = n
  · obtain ⟨a, ha, hlive, rfl⟩ := hmem
    rw [(current_of_mem (E := E) hs hlen ha hlive rfl hn).2]
    rcases hout a ha hlive with ⟨ha', hlive', hsame⟩ | ⟨hnot, hsame⟩
    · rw [(current_of_mem (E := E) ht hlen' ha' hlive' hsame.1 hn).2]
      exact hsame
    · rw [(current_of_not (E := E) ht hlen' hn hnot).2, hdisk]
      exact hsame
  · push Not at hmem
    rw [(current_of_not (E := E) hs hlen hn hmem).2]
    by_cases hmem' : ∃ b ∈ ys, t.heap b = some Blk.inode ∧ (t.inode b).iNo = n
    · obtain ⟨b, hb, hlive, rfl⟩ := hmem'
      rw [(current_of_mem (E := E) ht hlen' hb hlive rfl hn).2]
      rcases hin b hb hlive with ⟨a, ha, hlivea, hno⟩ | hsame
      · exact absurd hno (hmem a ha hlivea)
      · exact hsame
    · push Not at hmem'
      rw [(current_of_not (E := E) ht hlen' hn hmem').2, hdisk]
      exact .refl _

end Current

/-! ## The walk -/

/-- The requests a walk may make. -/
abbrev walkRequests : ℕ := 4096

/-- The directory `d` with the number `n` can be used and closed. The root directory is not closed; an
inode that closing would drop agrees with its slot. -/
structure Fs.Holding (E : Env) (s : Fs) (xs : List ℕ) (d : Dir) (n : ℕ) : Prop where
  mem : d.inode ∈ xs
  live : s.heap d.inode = some Blk.inode
  number : (s.inode d.inode).iNo = n
  root : d.block = none → d.inode = s.rootInode
  block : ∀ b, d.block = some b → s.heap b = some Blk.dir ∧ (s.cur.pgdir = none → kHeapStart ≤ b)
  count : ∀ b, d.block = some b → (s.inode d.inode).iOpenCnts < 2 ^ 32
  last : ∀ b, d.block = some b → (s.inode d.inode).iOpenCnts = 1 →
    (slot E s.disk n).Same (s.inode d.inode) ∧ kHeapStart ≤ d.inode ∧ d.inode ≠ s.rootInode

/-- A state `s` on the walk that began in `s₀`, with the directory `d` open. -/
structure Walking (E : Env) (s₀ s : Fs) (xs : List ℕ) (d : Dir) (n : ℕ) : Prop where
  cache : CacheInv s xs
  len : xs.length + s₀.tick + walkRequests ≤ walkFuel + s.tick
  grown : s₀.Grown s
  disk : s.disk = s₀.disk
  bitmap : ∀ ty, s.bitmap ty = s₀.bitmap ty
  pgdir : s.cur.pgdir = s₀.cur.pgdir
  rootInode : s.rootInode = s₀.rootInode
  current : ∀ n < 4096, (s.current E n).Same (s₀.current E n)
  rootHeld : s.Holding E xs (rootDir s) 0
  held : s.Holding E xs d n
  counts : ∀ a ∈ xs, s.heap a = some Blk.inode → (a = d.inode → d.block = none) →
    (s.inode a).iOpenCnts ≠ 0 ∧ (s.inode a).iOpenCnts < 2 ^ 32

namespace Fs.Holding

variable {E : Env} {s t : Fs} {xs : List ℕ} {d : Dir} {n a : ℕ}

/-- The members and the block of the directory are what matters. -/
theorem congr (h : s.Holding E xs d n) (hdisk : t.disk = s.disk)
    (hpgdir : t.cur.pgdir = s.cur.pgdir) (hroot : t.rootInode = s.rootInode)
    (hheap : ∀ a ∈ xs, t.heap a = s.heap a) (hino : ∀ a ∈ xs, t.inode a = s.inode a)
    (hblock : ∀ b, d.block = some b → t.heap b = s.heap b) : t.Holding E xs d n where
  mem := h.mem
  live := (hheap _ h.mem).trans h.live
  number := (congrArg Inode.iNo (hino _ h.mem)).trans h.number
  root := by rw [hroot]; exact h.root
  block b hb := by
    rw [hblock b hb, hpgdir]
    exact h.block b hb
  count b hb := by
    rw [hino _ h.mem]
    exact h.count b hb
  last b hb hcnt := by
    rw [hino _ h.mem] at hcnt ⊢
    rw [hdisk, hroot]
    exact h.last b hb hcnt

end Fs.Holding

namespace Walking

variable {E : Env} {s₀ s t : Fs} {xs : List ℕ} {d : Dir} {n a : ℕ}

theorem length_lt (h : Walking E s₀ s xs d n) (htick : s.tick < s₀.tick + walkRequests) :
    xs.length < walkFuel := by
  have := h.len
  omega

/-- Blocks that are no members change. -/
theorem congr (h : Walking E s₀ s xs d n) (hlt : s.tick < s₀.tick + walkRequests)
    (hcache : CacheInv t xs) (hgrown : s₀.Grown t) (htick : s.tick ≤ t.tick)
    (hdisk : t.disk = s.disk) (hbitmap : ∀ ty, t.bitmap ty = s.bitmap ty)
    (hpgdir : t.cur.pgdir = s.cur.pgdir) (hroot : t.rootInode = s.rootInode)
    (hheap : ∀ a ∈ xs, t.heap a = s.heap a) (hino : ∀ a ∈ xs, t.inode a = s.inode a)
    (hblock : ∀ b, d.block = some b → t.heap b = s.heap b) : Walking E s₀ t xs d n where
  cache := hcache
  len := by
    have := h.len
    omega
  grown := hgrown
  disk := hdisk.trans h.disk
  bitmap ty := (hbitmap ty).trans (h.bitmap ty)
  pgdir := hpgdir.trans h.pgdir
  rootInode := hroot.trans h.rootInode
  current m hm := by
    refine (current_same (E := E) h.cache (h.length_lt hlt) hcache (h.length_lt hlt) hdisk ?_ ?_
      hm).trans (h.current m hm)
    · intro a ha hlive
      exact Or.inl ⟨ha, (hheap a ha).trans hlive, by rw [hino a ha]; exact .refl _⟩
    · intro b hb hlive
      refine Or.inl ⟨b, hb, (hheap b hb).symm.trans hlive, by rw [hino b hb]⟩
  rootHeld := by
    rw [rootDir, hroot]
    exact h.rootHeld.congr hdisk hpgdir hroot hheap hino nofun
  held := h.held.congr hdisk hpgdir hroot hheap hino hblock
  counts a ha hlive := by
    rw [hino a ha]
    exact h.counts a ha ((hheap a ha).symm.trans hlive)

/-- The heap answers a request on the walk. -/
theorem exists_answer (h : Walking E s₀ s xs d n) (hserve : E.Serves s₀ walkRequests)
    (hlt : s.tick < s₀.tick + walkRequests) (k : Bool) (size : ℕ) :
    ∃ b, E.malloc s.tick s.heap s.stale k size = some b ∧ s.stale b = false ∧ b ∉ xs ∧
      s.heap b = none := by
  obtain ⟨b, hb, hst⟩ := hserve s h.grown hlt k size
  exact ⟨b, hb, hst, h.cache.notMem_of_none (E.malloc_fresh hb) hst, E.malloc_fresh hb⟩

/-- The block of the open directory is live. -/
theorem block_ne (h : Walking E s₀ s xs d n) {b b' : ℕ} (hb : s.heap b = none)
    (hd : d.block = some b') : b' ≠ b := by
  rintro rfl
  rw [(h.held.block _ hd).1] at hb
  cases hb

theorem alloc (h : Walking E s₀ s xs d n) (hlt : s.tick < s₀.tick + walkRequests) {b : ℕ}
    (hb : b ∉ xs) (hnone : s.heap b = none) (hge : userVaddrStart ≤ b) (k : Blk) :
    Walking E s₀ (s.alloc b k) xs d n := by
  have hne : ∀ a ∈ xs, a ≠ b := fun a ha heq ↦ hb (heq ▸ ha)
  refine h.congr hlt (h.cache.alloc hb hge) (h.grown.alloc b k) (Nat.le_succ _) rfl
    (fun ty ↦ by cases ty <;> rfl) rfl rfl ?_ ?_ ?_
  · exact fun a ha ↦ Function.update_of_ne (hne a ha) ..
  · exact fun a ha ↦ Function.update_of_ne (hne a ha) ..
  · exact fun b' hb' ↦ Function.update_of_ne (h.block_ne hnone hb') ..

theorem free (h : Walking E s₀ s xs d n) (hlt : s.tick < s₀.tick + walkRequests) {b : ℕ}
    (hb : b ∉ xs) (hd : d.block ≠ some b) : Walking E s₀ (s.free E b) xs d n := by
  have hne : ∀ a ∈ xs, a ≠ b := fun a ha heq ↦ hb (heq ▸ ha)
  refine h.congr hlt (h.cache.free hb) (h.grown.free E b) (Nat.le_succ _) rfl
    (fun ty ↦ by cases ty <;> rfl) rfl rfl ?_ ?_ ?_
  · exact fun a ha ↦ Function.update_of_ne (hne a ha) ..
  · exact fun a ha ↦ Function.update_of_ne (hne a ha) ..
  · exact fun b' hb' ↦ Function.update_of_ne
      (fun heq ↦ hd (hb'.trans (congrArg some heq))) ..

/-- The inode of the open directory is the one its number stands for. -/
theorem same_current (h : Walking E s₀ s xs d n) (hlt : s.tick < s₀.tick + walkRequests)
    (hn : n < 4096) : (s.inode d.inode).Same (s₀.current E n) := by
  have hcur := (current_of_mem (E := E) h.cache (h.length_lt hlt) h.held.mem h.held.live
    h.held.number hn).2
  rw [← hcur]
  exact h.current n hn

/-- **Searching** the open directory. -/
theorem searchDirEntry (h : Walking E s₀ s xs d n) (hp : E.part.Formatted)
    (hserve : E.Serves s₀ walkRequests) (hlt : s.tick + 4 ≤ s₀.tick + walkRequests) (hn : n < 4096)
    (htable : (s₀.current E n).iSectors 12 ≤ maxLba)
    (hblocks : ∀ k < 140, (s₀.current E n).blocks s₀.disk k ≤ maxLba) (name : List UInt8) :
    ∃ s', Returns (searchDirEntry E d name) s (s₀.child E n name) s' ∧
      Walking E s₀ s' xs d n ∧ s'.tick = s.tick + 4 := by
  have hsame := h.same_current (by omega) hn
  -- the two buffers
  obtain ⟨a, ha, hsta, hnota, hnonea⟩ := h.exists_answer hserve (by omega) s.cur.pgdir.isNone 560
  have h₁ := h.alloc (by omega) hnota hnonea (E.malloc_ge ha) Blk.buffer
  have htick₁ : (s.alloc a Blk.buffer).tick = s.tick + 1 := rfl
  obtain ⟨b, hb, hstb, hnotb, hnoneb⟩ := h₁.exists_answer hserve (by omega)
    s.cur.pgdir.isNone 512
  have h₂ := h₁.alloc (by omega) hnotb hnoneb (E.malloc_ge hb) Blk.buffer
  have htick₂ : ((s.alloc a Blk.buffer).alloc b Blk.buffer).tick = s.tick + 2 := rfl
  have hda : d.block ≠ some a := fun hd ↦ h.block_ne hnonea hd rfl
  have hdb : d.block ≠ some b := fun hd ↦ h₁.block_ne hnoneb hd rfl
  have h₃ := h₂.free (by omega) hnotb hdb
  have htick₃ : (((s.alloc a Blk.buffer).alloc b Blk.buffer).free E b).tick = s.tick + 3 := rfl
  have h₄ := h₃.free (by omega) hnota hda
  -- what the search returns
  obtain ⟨s', hret⟩ : ∃ s', Returns (GlowOS.searchDirEntry E d name) _ (lookup _ _ name) s' :=
    searchDirEntry_complete hp h.held.live
    (by rw [hsame.2.2 12 (by decide)]; exact htable)
    (fun k hk ↦ by rw [hsame.blocks, h.disk]; exact hblocks k hk) ⟨a, b, ha, hb⟩
  have hchild : lookup s.disk (s.inode d.inode) name = s₀.child E n name := by
    rw [hsame.lookup, h.disk]
    rfl
  rw [hchild] at hret
  refine ⟨s', hret, ?_⟩
  have ha' : s.answer E 560 = some a := ha
  have hb' : (s.alloc a Blk.buffer).answer E 512 = some b := hb
  rcases searchDirEntry_sound hp hret with ⟨hnone, -⟩ | ⟨a', b', hans, hans', -, -, rfl⟩
  · rw [ha'] at hnone
    cases hnone
  · rw [ha'] at hans
    obtain rfl := Option.some.inj hans
    rw [hb'] at hans'
    obtain rfl := Option.some.inj hans'
    exact ⟨h₄, rfl⟩

/-- The root directory is open anyway. -/
theorem toRoot (h : Walking E s₀ s xs d n) (hd : d.block = none) :
    Walking E s₀ s xs (rootDir s) 0 :=
  { h with
    held := h.rootHeld
    counts := fun a ha hlive _ ↦ h.counts a ha hlive fun _ ↦ hd }

/-- An open count matters to nothing else. -/
theorem setOpenCnts_same (s : Fs) (a c x : ℕ) :
    ((s.setOpenCnts a c).inode x).Same (s.inode x) := by
  rw [Fs.setOpenCnts, Fs.setInode_inode]
  by_cases hx : x = a
  · rw [hx, Function.update_self]
    exact ⟨rfl, rfl, fun _ _ ↦ rfl⟩
  · rw [Function.update_of_ne hx]
    exact .refl _

theorem setOpenCnts_current (h : Walking E s₀ s xs d n) (hlt : s.tick < s₀.tick + walkRequests)
    (a c : ℕ) {m : ℕ} (hm : m < 4096) :
    ((s.setOpenCnts a c).current E m).Same (s.current E m) := by
  have hsame := setOpenCnts_same s a c
  refine current_same (E := E) h.cache (h.length_lt hlt) (h.cache.setInode rfl) (h.length_lt hlt)
    rfl ?_ ?_ hm
  · exact fun x hx hlive ↦ Or.inl ⟨hx, hlive, hsame x⟩
  · exact fun x hx hlive ↦ Or.inl ⟨x, hx, hlive, (hsame x).1.symm⟩

/-- The open count of the open directory goes down, and it stays in memory. -/
theorem countDown (h : Walking E s₀ s xs d n) (hlt : s.tick < s₀.tick + walkRequests) {c : ℕ}
    (h0 : c ≠ 0) (hc : c < 2 ^ 32) :
    Walking E s₀ (s.setOpenCnts d.inode c) xs (rootDir s) 0 := by
  have hsame := setOpenCnts_same s d.inode c
  have hroot : (s.setOpenCnts d.inode c).Holding E xs (rootDir s) 0 :=
    ⟨h.rootHeld.mem, h.rootHeld.live, (hsame _).1.trans h.rootHeld.number, fun _ ↦ rfl, nofun,
      nofun, nofun⟩
  refine ⟨h.cache.setInode rfl, h.len, h.grown.congr rfl rfl rfl, h.disk, h.bitmap, h.pgdir,
    h.rootInode,
    fun m hm ↦ (h.setOpenCnts_current hlt _ c hm).trans (h.current m hm), hroot, hroot, ?_⟩
  intro a ha hlive _
  by_cases had : a = d.inode
  · rw [Fs.setOpenCnts, Fs.setInode_inode, had, Function.update_self]
    exact ⟨h0, hc⟩
  · rw [Fs.setOpenCnts, Fs.setInode_inode, Function.update_of_ne had]
    exact h.counts a ha hlive fun heq ↦ absurd heq had

/-- The state after the last opener of the inode `a` closed it. -/
def dropped (E : Env) (s : Fs) (a : ℕ) : Fs :=
  { (s.setOpenCnts a 0).free E a with stale := Function.update s.stale a true }

/-- The inode of the open directory is given back, and stands on the disk as it was. -/
theorem drop (h : Walking E s₀ s xs d n) (hlt : s.tick < s₀.tick + walkRequests)
    (hslot : (slot E s.disk n).Same (s.inode d.inode)) (hroot : d.inode ≠ s.rootInode) :
    Walking E s₀ (dropped E s d.inode) xs (rootDir s) 0 := by
  set t := dropped E s d.inode with ht
  have hheap : ∀ a ≠ d.inode, t.heap a = s.heap a := fun a ha ↦ Function.update_of_ne ha ..
  have hino : ∀ a ≠ d.inode, t.inode a = s.inode a := fun a ha ↦
    (Function.update_of_ne ha ..).trans (Function.update_of_ne ha ..)
  have hself : t.heap d.inode = none := Function.update_self ..
  have hne : ∀ a, t.heap a = some Blk.inode → a ≠ d.inode := by
    rintro a hlive rfl
    rw [hself] at hlive
    cases hlive
  have hset : CacheInv (s.setOpenCnts d.inode 0) xs := h.cache.setInode rfl
  have hcache : CacheInv t xs := hset.close
  have hroot' : s.rootInode ≠ d.inode := Ne.symm hroot
  have hheld : t.Holding E xs (rootDir s) 0 :=
    ⟨h.rootHeld.mem, (hheap _ hroot').trans h.rootHeld.live,
      (congrArg Inode.iNo (hino _ hroot')).trans h.rootHeld.number, fun _ ↦ rfl, nofun, nofun, nofun⟩
  have htick : t.tick = s.tick + 1 := rfl
  have hgrown : s₀.Grown (s.setOpenCnts d.inode 0) := h.grown.congr rfl rfl rfl
  refine ⟨hcache, ?_, ?_, h.disk, h.bitmap, h.pgdir, h.rootInode, ?_, hheld, hheld, ?_⟩
  · have := h.len
    omega
  · refine hgrown.close E ?_
    change s.heap d.inode ≠ none
    rw [h.held.live]
    nofun
  · intro m hm
    refine (current_same (E := E) h.cache (h.length_lt hlt) hcache (h.length_lt hlt) rfl ?_ ?_
      hm).trans (h.current m hm)
    · intro a ha hlive
      by_cases had : a = d.inode
      · -- no other inode in memory has its number
        subst had
        refine Or.inr ⟨fun b hb hliveb hno ↦ ?_, by rw [h.held.number]; exact hslot⟩
        have hbd := hne b hliveb
        rw [hino b hbd] at hno
        exact hbd (h.cache.inj b hb _ ha ((hheap b hbd).symm.trans hliveb) hlive hno)
      · exact Or.inl ⟨ha, (hheap a had).trans hlive, by rw [hino a had]; exact .refl _⟩
    · intro b hb hliveb
      have hbd := hne b hliveb
      exact Or.inl ⟨b, hb, (hheap b hbd).symm.trans hliveb, by rw [hino b hbd]⟩
  · intro a ha hlive _
    have had := hne a hlive
    rw [hino a had]
    exact h.counts a ha ((hheap a had).symm.trans hlive) fun heq ↦ absurd heq had

/-- **Closing** the open directory goes back to the root directory. -/
theorem dirClose (h : Walking E s₀ s xs d n) (hlt : s.tick + 2 ≤ s₀.tick + walkRequests) :
    ∃ s', Returns (dirClose E d) s PUnit.unit s' ∧ Walking E s₀ s' xs (rootDir s') 0 ∧
      s'.tick ≤ s.tick + 2 := by
  cases hd : d.block with
  | none =>
    refine ⟨s, ?_, h.toRoot hd, Nat.le_add_right _ _⟩
    rw [GlowOS.dirClose, hd]
    exact returns_pure.mpr ⟨rfl, rfl⟩
  | some b =>
    obtain ⟨hliveb, hkernel⟩ := h.held.block b hd
    have hcount := h.held.count b hd
    have hb : b ∉ xs := h.cache.notMem_of_blk hliveb (by decide)
    set c := ((s.inode d.inode).iOpenCnts + 2 ^ 32 - 1) % 2 ^ 32 with hc
    by_cases h0 : c = 0
    · -- the last opener
      have hone : (s.inode d.inode).iOpenCnts = 1 := by omega
      obtain ⟨hslot, hge, hroot⟩ := h.held.last b hd hone
      have h₁ := h.drop (by omega) hslot hroot
      have htick₁ : (dropped E s d.inode).tick = s.tick + 1 := rfl
      have h₂ := h₁.free (b := b) (by omega) hb fun heq ↦ (by cases heq)
      refine ⟨_, ?_, h₂, Nat.le_refl _⟩
      rw [GlowOS.dirClose, hd]
      refine returns_bind.mpr ⟨PUnit.unit, dropped E s d.inode, ?_,
        returns_sysFree.mpr ⟨hkernel, rfl⟩⟩
      refine returns_bind.mpr ⟨_, _, returns_inodeAt.mpr ⟨h.held.live, rfl, rfl⟩, ?_⟩
      rw [returns_modify_bind]
      refine returns_ite.mpr (Or.inl ⟨h0, ?_⟩)
      refine returns_bind.mpr ⟨PUnit.unit, _, returns_free_kernel.mpr ⟨hge, rfl⟩, ?_⟩
      rw [returns_modify, ← hc, h0]
      rfl
    · have h₁ := h.countDown (by omega) h0 (Nat.mod_lt _ (by decide))
      have htick₁ : (s.setOpenCnts d.inode c).tick = s.tick := rfl
      have h₂ := h₁.free (b := b) (by omega) hb fun heq ↦ (by cases heq)
      refine ⟨_, ?_, h₂, Nat.le_succ _⟩
      rw [GlowOS.dirClose, hd]
      refine returns_bind.mpr ⟨PUnit.unit, s.setOpenCnts d.inode c, ?_,
        returns_sysFree.mpr ⟨hkernel, rfl⟩⟩
      refine returns_bind.mpr ⟨_, _, returns_inodeAt.mpr ⟨h.held.live, rfl, rfl⟩, ?_⟩
      rw [returns_modify_bind]
      exact returns_ite.mpr (Or.inr ⟨h0, returns_pure.mpr ⟨rfl, rfl⟩⟩)

/-- An inode in memory is opened once more, for the directory with the block `b`. -/
theorem countUp (h : Walking E s₀ s xs (rootDir s) 0) (hlt : s.tick < s₀.tick + walkRequests)
    (ha : a ∈ xs) (hlive : s.heap a = some Blk.inode) (hno : (s.inode a).iNo = n) {b : ℕ}
    (hb : s.heap b = some Blk.dir) (hk : s.cur.pgdir = none → kHeapStart ≤ b) :
    Walking E s₀ (s.setOpenCnts a (((s.inode a).iOpenCnts + 1) % 2 ^ 32)) xs ⟨a, some b⟩ n := by
  obtain ⟨hpos, hlt32⟩ := h.counts a ha hlive fun _ ↦ rfl
  have hc : ((s.inode a).iOpenCnts + 1) % 2 ^ 32 ≠ 1 := by omega
  have hsame := setOpenCnts_same s a (((s.inode a).iOpenCnts + 1) % 2 ^ 32)
  refine ⟨h.cache.setInode rfl, h.len, h.grown.congr rfl rfl rfl, h.disk, h.bitmap, h.pgdir,
    h.rootInode,
    fun m hm ↦ (h.setOpenCnts_current hlt a _ hm).trans (h.current m hm), ?_, ?_, ?_⟩
  · exact ⟨h.rootHeld.mem, h.rootHeld.live, (hsame _).1.trans h.rootHeld.number, fun _ ↦ rfl, nofun,
      nofun, nofun⟩
  · refine ⟨ha, hlive, (hsame a).1.trans hno, nofun, ?_, ?_, ?_⟩
    · rintro _ ⟨⟩
      exact ⟨hb, hk⟩
    · rintro _ -
      rw [Fs.setOpenCnts, Fs.setInode_inode, Function.update_self]
      exact Nat.mod_lt _ (by decide)
    · rintro _ - hone
      rw [Fs.setOpenCnts, Fs.setInode_inode, Function.update_self] at hone
      exact absurd hone hc
  · intro x hx hlivex hxa
    have hne : x ≠ a := by
      rintro rfl
      cases hxa rfl
    rw [Fs.setOpenCnts, Fs.setInode_inode, Function.update_of_ne hne]
    exact h.counts x hx hlivex fun _ ↦ rfl

/-- An inode that is not in memory is read from its slot, for the directory with the block `b`. -/
theorem load (h : Walking E s₀ s xs (rootDir s) 0) (hlt : s.tick + 3 ≤ s₀.tick + walkRequests)
    (hn : n < 4096) (hno : (s₀.current E n).iNo = n) (hmiss : s.findOpen n = some none) {c m b : ℕ}
    (ha : E.malloc s.tick s.heap s.stale true 76 = some a) (hsta : s.stale a = false)
    (hc : (s.alloc a Blk.inode).answer E m = some c) (hstc : (s.alloc a Blk.inode).stale c = false)
    (hb : s.heap b = some Blk.dir) (hk : s.cur.pgdir = none → kHeapStart ≤ b) :
    Walking E s₀ (s.loaded E n a c) (a :: xs) ⟨a, some b⟩ n := by
  have hlen := h.length_lt (by omega)
  have hnonea : s.heap a = none := E.malloc_fresh ha
  have hnota : a ∉ xs := h.cache.notMem_of_none hnonea hsta
  have hcache₁ := h.cache.alloc (k := Blk.inode) hnota (E.malloc_ge ha)
  have hnonec : (s.alloc a Blk.inode).heap c = none := E.malloc_fresh hc
  have hnotc : c ∉ xs := hcache₁.notMem_of_none hnonec hstc
  have hca : c ≠ a := by
    rintro rfl
    have hlive : (s.alloc c Blk.inode).heap c = some Blk.inode := Function.update_self ..
    cases hnonec.symm.trans hlive
  have hcache₂ := hcache₁.alloc (k := Blk.buffer) hnotc (E.malloc_ge hc)
  set u := s.loaded E n a c with hu
  -- what the new state holds
  have hheap : ∀ x, x ≠ a → x ≠ c → u.heap x = s.heap x := fun x hxa hxc ↦
    (Function.update_of_ne hxc ..).trans <| (Function.update_of_ne hxc ..).trans <|
      Function.update_of_ne hxa ..
  have hheapa : u.heap a = some Blk.inode :=
    (Function.update_of_ne (Ne.symm hca) ..).trans <|
      (Function.update_of_ne (Ne.symm hca) ..).trans (Function.update_self ..)
  have hinoa : u.inode a = { slot E s.disk n with iOpenCnts := 1 } :=
    Fs.loaded_inode s (Ne.symm hca)
  have hino : ∀ x, x ≠ a → x ≠ c → u.inode x = s.inode x := fun x hxa hxc ↦
    (Function.update_of_ne hxc ..).trans <| (Function.update_of_ne hxa ..).trans <|
      (Function.update_of_ne hxa ..).trans <| (Function.update_of_ne hxc ..).trans <|
        Function.update_of_ne hxa ..
  have htick : u.tick = s.tick + 3 := rfl
  have hne : ∀ x ∈ xs, x ≠ a ∧ x ≠ c := fun x hx ↦
    ⟨fun heq ↦ hnota (heq ▸ hx), fun heq ↦ hnotc (heq ▸ hx)⟩
  -- the number is new
  have hnot := h.cache.findOpen_none hmiss
  have hcur := (current_of_not (E := E) h.cache hlen hn fun x hx _ ↦ hnot x hx).2
  have hslotno : (slot E s.disk n).iNo = n := by
    rw [← hcur, (h.current n hn).1, hno]
  -- the list
  have hcache : CacheInv u (a :: xs) := by
    set t := (s.alloc a Blk.inode).alloc c Blk.buffer with ht
    set img : Image := fun i ↦ s.disk (512 * (inodePosition E n).secLba + i) with himg
    have hload : CacheInv (t.loadInode a img (inodePosition E n).offSize) xs :=
      hcache₂.of_notMem hnota (E.malloc_ge ha)
        (fun x hx ↦ ⟨Function.update_of_ne hx .., Function.update_of_ne hx ..⟩) (fun _ _ ↦ rfl)
        (fun _ _ ↦ rfl) fun x hx ↦ congrArg Inode.iNo (Function.update_of_ne hx ..)
    have hnoa : ((t.loadInode a img (inodePosition E n).offSize).inode a).iNo = n := by
      have hsame := congrArg Inode.iNo hinoa
      rw [hu, Fs.loaded, Fs.free] at hsame
      simpa [Fs.setOpenCnts, Fs.setInode, Fs.pushOpen, Function.update_of_ne (Ne.symm hca), hslotno]
        using hsame
    have hpush := hload.push (a := a) hnota (E.malloc_ge ha)
      ((Function.update_of_ne (Ne.symm hca) ..).trans (Function.update_self ..)) (by
        intro x hx _
        obtain ⟨hxa, hxc⟩ := hne x hx
        rw [hnoa]
        have hx' : (t.loadInode a img (inodePosition E n).offSize).inode x = s.inode x :=
          (Function.update_of_ne hxa ..).trans <| (Function.update_of_ne hxc ..).trans <|
            Function.update_of_ne hxa ..
        rw [hx']
        exact hnot x hx)
    have hset : CacheInv (((t.loadInode a img (inodePosition E n).offSize).pushOpen a).setOpenCnts
      a 1) (a :: xs) := hpush.setInode rfl
    exact hset.free (by simp [hca, hnotc])
  refine ⟨hcache, ?_, ?_, h.disk, h.bitmap, h.pgdir, h.rootInode, ?_, ?_, ?_, ?_⟩
  · have := h.len
    rw [List.length_cons]
    omega
  · exact ((((h.grown.alloc a Blk.inode).alloc c Blk.buffer).congr rfl rfl rfl).free E c)
  · intro m hm
    refine (current_same (E := E) h.cache hlen hcache ?_ rfl ?_ ?_ hm).trans (h.current m hm)
    · have := h.len
      rw [List.length_cons]
      omega
    · intro x hx hlive
      obtain ⟨hxa, hxc⟩ := hne x hx
      exact Or.inl ⟨List.mem_cons_of_mem _ hx, (hheap x hxa hxc).trans hlive, by
        rw [hino x hxa hxc]
        exact .refl _⟩
    · intro x hx hlive
      rcases List.mem_cons.mp hx with rfl | hx
      · refine Or.inr ?_
        rw [hinoa]
        change Inode.Same _ (slot E s.disk (slot E s.disk n).iNo)
        rw [hslotno]
        exact ⟨rfl, rfl, fun _ _ ↦ rfl⟩
      · obtain ⟨hxa, hxc⟩ := hne x hx
        exact Or.inl ⟨x, hx, (hheap x hxa hxc).symm.trans hlive, by rw [hino x hxa hxc]⟩
  · obtain ⟨hra, hrc⟩ := hne _ h.rootHeld.mem
    exact ⟨List.mem_cons_of_mem _ h.rootHeld.mem, (hheap _ hra hrc).trans h.rootHeld.live,
      (congrArg Inode.iNo (hino _ hra hrc)).trans h.rootHeld.number, fun _ ↦ rfl,
      fun _ heq ↦ (by cases heq), fun _ heq ↦ (by cases heq), fun _ heq ↦ (by cases heq)⟩
  · refine ⟨List.mem_cons_self, hheapa, ?_, ?_, ?_, ?_, ?_⟩
    · rw [hinoa]
      exact hslotno
    · intro heq
      cases heq
    · rintro b' ⟨⟩
      have hba : b ≠ a := by
        rintro rfl
        rw [hnonea] at hb
        cases hb
      have hbc : b ≠ c := by
        rintro rfl
        have hlive : (s.alloc a Blk.inode).heap b = some Blk.dir :=
          (Function.update_of_ne hba ..).trans hb
        cases hnonec.symm.trans hlive
      exact ⟨(hheap b hba hbc).trans hb, hk⟩
    · rintro _ -
      rw [hinoa]
      exact Nat.one_lt_two_pow (by decide)
    · rintro _ - -
      rw [hinoa]
      refine ⟨⟨rfl, rfl, fun _ _ ↦ rfl⟩, (E.malloc_kernel ha).mp rfl, ?_⟩
      exact fun heq ↦ (hne _ h.rootHeld.mem).1 heq.symm
  · intro x hx hlive hxd
    rcases List.mem_cons.mp hx with rfl | hx
    · cases hxd rfl
    · obtain ⟨hxa, hxc⟩ := hne x hx
      rw [hino x hxa hxc]
      exact h.counts x hx ((hheap x hxa hxc).symm.trans hlive) fun _ ↦ rfl

/-- **Opening** a directory. -/
theorem dirOpen (h : Walking E s₀ s xs (rootDir s) 0) (hp : E.part.Formatted)
    (hserve : E.Serves s₀ walkRequests) (hlt : s.tick + 4 ≤ s₀.tick + walkRequests) (hn : n < 4096)
    (hno : (s₀.current E n).iNo = n) :
    ∃ d s' ys, Returns (dirOpen E n) s d s' ∧ Walking E s₀ s' ys d n ∧ s'.tick ≤ s.tick + 4 := by
  -- the block of the directory
  obtain ⟨b, hb, -, hnotb, hnoneb⟩ := h.exists_answer hserve (by omega) s.cur.pgdir.isNone 520
  have h₁ := h.alloc (by omega) hnotb hnoneb (E.malloc_ge hb) Blk.dir
  have hk : s.cur.pgdir = none → kHeapStart ≤ b := fun hnone ↦
    (E.malloc_kernel hb).mp (Option.isNone_iff_eq_none.mpr hnone)
  set t := s.alloc b Blk.dir with ht
  have htick₁ : t.tick = s.tick + 1 := rfl
  have hliveb : t.heap b = some Blk.dir := Function.update_self ..
  have hopen : ∀ a s', Returns (inodeOpen E n) t a s' →
      Returns (GlowOS.dirOpen E n) s ⟨a, some b⟩ s' := fun a s' hret ↦
    returns_bind.mpr ⟨b, t, returns_sysMallocUnchecked.mpr ⟨hb, rfl⟩,
      returns_bind.mpr ⟨a, s', hret, returns_pure.mpr ⟨rfl, rfl⟩⟩⟩
  cases hf : xs.find? fun a ↦ (t.inode a).iNo == n with
  | some a =>
    -- in memory
    have hfind : t.findOpen n = some (some a) :=
      (findOpen_of_inv h₁.cache (h₁.length_lt (by omega)) n).trans (congrArg some hf)
    obtain ⟨ha, hlive, hnoa⟩ := h₁.cache.findOpen_some
      (Or.inl (by rw [userVaddrStart]; omega)) hfind
    refine ⟨⟨a, some b⟩, _, xs, hopen a _ (returns_inodeOpen.mpr (Or.inl ⟨hfind, rfl⟩)),
      h₁.countUp (by omega) ha hlive hnoa hliveb hk, ?_⟩
    exact htick₁.le.trans (Nat.add_le_add_left (by decide) _)
  | none =>
    have hfind : t.findOpen n = some none :=
      (findOpen_of_inv h₁.cache (h₁.length_lt (by omega)) n).trans (congrArg some hf)
    obtain ⟨a, ha, hsta, hnota, hnonea⟩ := h₁.exists_answer hserve (by omega) true 76
    have h₂ := h₁.alloc (by omega) hnota hnonea (E.malloc_ge ha) Blk.inode
    have htick₂ : (t.alloc a Blk.inode).tick = s.tick + 2 := rfl
    obtain ⟨c, hc, hstc, -, -⟩ := h₂.exists_answer hserve (by omega)
      (t.alloc a Blk.inode).cur.pgdir.isNone (512 * (inodePosition E n).sectors)
    have hload := h₁.load (by omega) hn hno hfind ha hsta hc hstc hliveb hk
    refine ⟨⟨a, some b⟩, _, a :: xs, hopen a _ (returns_inodeOpen.mpr (Or.inr ⟨hfind, ?_⟩)),
      hload, Nat.le_refl _⟩
    exact returns_inodeLoad.mpr ⟨hn, (slotAccess_of_formatted hp hn).onDisk, ha, c, hc, rfl⟩

end Walking

end GlowOS
