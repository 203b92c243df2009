import Mathlib
import GlowOS.Userprog.Exec

/-!
# What a loaded program consists of

When `load` returns an entry point, the bytes of every loadable segment should be in the memory of
the process, and a file that is too short for its headers or its segments should have been turned
down. `load` looks at what `sys_read` returns for a header, but not at what `sys_lseek` returns, and
`segment_load` looks at neither. So a file whose headers or segments reach behind its end is loaded
in part, or from the wrong place.

Between two headers the memory is what the segments before have put there: the pages that are taken
for a segment were not mapped, and the segments are disjoint.
-/

namespace GlowOS.Exec

open Bytes Program

/-! ## The file as it should be read -/

/-- `e_phnum`. -/
def Content.ePhnum (f : Content) : ℕ := half f.byte 44

/-- `e_phoff`. -/
def Content.ePhoff (f : Content) : ℕ := le32 f.byte 28

/-- The program header number `k`. -/
def Content.phdr (f : Content) (k : ℕ) : ProgHeader :=
  progHeader fun i ↦ f.byte (f.ePhoff + 32 * k + i)

/-- The program header number `k` is there and is of type `PT_LOAD`. -/
def Content.Loadable (f : Content) (k : ℕ) : Prop := k < f.ePhnum ∧ (f.phdr k).pType = 1

/-- The address belongs to the segment. -/
def ProgHeader.Contains (p : ProgHeader) (a : ℕ) : Prop := p.pVaddr ≤ a ∧ a < p.pVaddr + p.pFilesz

/-- The loadable segments are disjoint. -/
def Content.Apart (f : Content) : Prop :=
  ∀ j k, f.Loadable j → f.Loadable k → j ≠ k → ∀ a, (f.phdr j).Contains a →
    ¬(f.phdr k).Contains a

/-- The bytes of the segment are in the memory, on pages that are mapped, and the file has them. -/
def Content.Supplies (f : Content) (p : ProgHeader) (s : Process) : Prop :=
  ∀ i < p.pFilesz, p.pOffset + i < f.size ∧ s.mapped ((p.pVaddr + i) / 4096) = true ∧
    s.mem (p.pVaddr + i) = f.byte (p.pOffset + i)

/-- The file has its headers, and every loadable segment is in the memory. -/
structure Loaded (f : Content) (s : Process) : Prop where
  elfHeader : 52 ≤ f.size
  headers : f.ePhnum = 0 ∨ f.ePhoff + 32 * f.ePhnum ≤ f.size
  segments : ∀ k, f.Loadable k → f.Supplies (f.phdr k) s

/-- The headers and the loadable segments end within the file. -/
structure Content.Whole (f : Content) : Prop where
  headers : f.ePhnum = 0 ∨ f.ePhoff + 32 * f.ePhnum ≤ f.size
  segments : ∀ k, f.Loadable k →
    (f.phdr k).pFilesz = 0 ∨ (f.phdr k).pOffset + (f.phdr k).pFilesz ≤ f.size

/-- How often `sys_read` is called for `left` program headers from number `k` on. -/
def Content.readCount (f : Content) : ℕ → ℕ → ℕ
  | 0, _ => 0
  | left + 1, k => (if (f.phdr k).pType = 1 then 2 else 1) + f.readCount left (k + 1)

/-- The heap has the buffers for the next `n` calls of `sys_read`. -/
def Setting.Buffered (E : Setting) (c : Cursor) (n : ℕ) : Prop :=
  ∀ k, c.reads ≤ k → k < c.reads + n → E.buffers k = true

/-- The largest size that `file_write` allows. -/
def maxFileSize : ℕ := 512 * 140

section Loading

variable {E : Setting} {f : Content} {s s' : Process} {c c' : Cursor}

/-! ## Reading -/

theorem sysLseek_pos {offset : ℕ} (hsize : f.size ≤ maxFileSize) (h : offset < f.size) :
    (sysLseek f offset c).pos = offset := by
  rw [maxFileSize] at hsize
  have hoffset : int32 offset = offset := Int.bmod_eq_of_le (by omega) (by omega)
  have hlast : int32 (int32 f.size - 1) = f.size - 1 := by
    have h32 : int32 f.size = f.size := Int.bmod_eq_of_le (by omega) (by omega)
    rw [h32]
    exact Int.bmod_eq_of_le (by omega) (by omega)
  rw [sysLseek, hoffset, hlast, if_neg (by omega)]
  exact Int.toNat_natCast offset

/-- What `sys_read` delivers comes from the position in the file. -/
theorem sysRead_data {count n : ℕ} {data : Image}
    (h : Returns (sysRead E f count) c (some (n, data)) c') :
    c.pos + n ≤ f.size ∧ n ≤ count ∧ data = (fun i ↦ f.byte (c.pos + i)) ∧
      (c.pos + count ≤ f.size → f.size < 2 ^ 32 → n = count) := by
  rw [sysRead, returns_get_bind] at h
  rcases returns_ite.mp h with ⟨-, h⟩ | ⟨-, h⟩
  · cases (returns_pure.mp h).1
  · rw [returns_modify_bind] at h
    rcases returns_ite.mp h with ⟨-, h⟩ | ⟨-, h⟩
    · rw [returns_check_bind, returns_check_bind, returns_modify_bind] at h
      obtain ⟨-, hend, h⟩ := h
      obtain ⟨heq, -⟩ := returns_pure.mp h
      obtain ⟨rfl, rfl⟩ := Prod.mk.inj (Option.some.inj heq)
      refine ⟨hend, ?_, rfl, fun hle hsize ↦ ?_⟩
      · split_ifs at hend ⊢ <;> omega
      · rw [if_neg (by omega)]
    · cases (returns_pure.mp h).1

theorem sysLseek_reads (f : Content) (offset : ℕ) (c : Cursor) :
    (sysLseek f offset c).reads = c.reads := by
  rw [sysLseek]
  split_ifs <;> rfl

theorem sysRead_reads {count : ℕ} {r : Option (ℕ × Image)}
    (h : Returns (sysRead E f count) c r c') : c.reads ≤ c'.reads ∧ c'.reads ≤ c.reads + 1 := by
  rw [sysRead, returns_get_bind] at h
  rcases returns_ite.mp h with ⟨-, h⟩ | ⟨-, h⟩
  · obtain ⟨-, rfl⟩ := returns_pure.mp h
    exact ⟨le_rfl, Nat.le_succ _⟩
  · rw [returns_modify_bind] at h
    rcases returns_ite.mp h with ⟨-, h⟩ | ⟨-, h⟩
    · rw [returns_check_bind, returns_check_bind, returns_modify_bind] at h
      obtain ⟨-, rfl⟩ := returns_pure.mp h.2.2
      exact ⟨Nat.le_succ _, le_rfl⟩
    · obtain ⟨-, rfl⟩ := returns_pure.mp h
      exact ⟨Nat.le_succ _, le_rfl⟩

/-- What is left of the buffers after some reads. -/
theorem Setting.Buffered.after {m n : ℕ} (h : E.Buffered c (m + n)) (hlo : c.reads ≤ c'.reads)
    (hhi : c'.reads ≤ c.reads + m) : E.Buffered c' n :=
  fun k hk hk' ↦ h k (by omega) (by omega)

/-- With the buffers there is no other failure than the end of the file. -/
theorem sysRead_ne_none {count : ℕ} (hbuf : E.buffers c.reads = true)
    (hle : c.pos + count ≤ f.size) (hsize : f.size ≤ maxFileSize) :
    ¬Returns (sysRead E f count) c none c' := by
  intro h
  rw [maxFileSize] at hsize
  rw [sysRead, returns_get_bind] at h
  rcases returns_ite.mp h with ⟨hend, -⟩ | ⟨-, h⟩
  · omega
  · rw [returns_modify_bind, if_pos hbuf, returns_check_bind, returns_check_bind,
      returns_modify_bind] at h
    cases (returns_pure.mp h.2.2).1

/-! ## Pages -/

theorem SameOn.refl (mapped : ℕ → Bool) (m : Image) : SameOn mapped m m := fun _ _ ↦ rfl

/-- `get_a_page` leaves the cursor, and the memory of the other pages. -/
theorem getAPage_leaves {va : ℕ} {b : Bool} (h : Returns (getAPage va) s b s') :
    s'.cursor = s.cursor ∧ ∀ a, a / 4096 ≠ va / 4096 → s'.mem a = s.mem a := by
  rw [getAPage, returns_check_bind, returns_check_bind, returns_modify_bind, returns_get_bind] at h
  obtain ⟨-, -, h⟩ := h
  split at h
  · obtain ⟨-, rfl⟩ := returns_pure.mp h
    exact ⟨rfl, fun _ _ ↦ rfl⟩
  · rw [returns_check_bind, returns_modify_bind] at h
    obtain ⟨-, rfl⟩ := returns_pure.mp h.2
    exact ⟨rfl, fun a ha ↦ splice_of_disjoint (by omega)⟩

/-- The loop maps all its pages, and leaves those that were mapped. -/
theorem loadPages_spec {left va : ℕ} (h : Returns (loadPages left va) s true s')
    (hva : va < 2 ^ 32) :
    (∀ k < left, s'.mapped ((va + 4096 * k) % 2 ^ 32 / 4096) = true) ∧
      SameOn s.mapped s'.mem s.mem ∧ s'.cursor = s.cursor := by
  induction left generalizing va s with
  | zero =>
    obtain ⟨-, rfl⟩ := returns_pure.mp h
    exact ⟨nofun, .refl _ _, rfl⟩
  | succ left ih =>
    -- the first page is mapped, and the loop goes on from a state `t` in which it is
    have hrest : ∀ t, t.mapped (va / 4096) = true → s.Grows t → SameOn s.mapped t.mem s.mem →
        t.cursor = s.cursor → Returns (loadPages left ((va + 4096) % 2 ^ 32)) t true s' →
        (∀ k < left + 1, s'.mapped ((va + 4096 * k) % 2 ^ 32 / 4096) = true) ∧
          SameOn s.mapped s'.mem s.mem ∧ s'.cursor = s.cursor := by
      intro t hmap hgrows hsame hcursor h
      obtain ⟨hpages, hmem, hcursor'⟩ := ih h (Nat.mod_lt _ (by omega))
      refine ⟨fun k hk ↦ ?_, fun a ha ↦ (hmem a (hgrows.mapped _ ha)).trans (hsame a ha),
        hcursor'.trans hcursor⟩
      cases k with
      | zero =>
        rw [Nat.mul_zero, Nat.add_zero, Nat.mod_eq_of_lt hva]
        exact (within_loadPages _ _ _ _ _ h).mapped _ hmap
      | succ k =>
        have := hpages k (by omega)
        rwa [show ((va + 4096) % 2 ^ 32 + 4096 * k) % 2 ^ 32 = (va + 4096 * (k + 1)) % 2 ^ 32 by
          omega] at this
    rw [loadPages, returns_get_bind] at h
    rcases returns_ite.mp h with ⟨hmap, h⟩ | ⟨hmap, h⟩
    · exact hrest s hmap (Std.Refl.refl s) (.refl _ _) rfl h
    · obtain ⟨got, t, hpage, h⟩ := returns_bind.mp h
      obtain ⟨hcursor, hmem⟩ := getAPage_leaves hpage
      obtain ⟨hgrows, ⟨-, rfl, -⟩ | ⟨-, hmapped⟩⟩ := returns_getAPage hpage
      · cases (returns_pure.mp h).1
      · rcases returns_ite.mp h with ⟨-, h⟩ | ⟨-, h⟩
        · refine hrest t hmapped hgrows (fun a ha ↦ hmem a fun heq ↦ hmap ?_) hcursor h
          rwa [← heq]
        · cases (returns_pure.mp h).1

/-- The pages of a segment contain its bytes. -/
theorem exists_page {p : ProgHeader} {i : ℕ} (hend : p.pVaddr + p.pFilesz ≤ 0xc0000000)
    (hi : i < p.pFilesz) : ∃ k < p.occupyPages,
      (p.pVaddr / 4096 * 4096 + 4096 * k) % 2 ^ 32 / 4096 = (p.pVaddr + i) / 4096 := by
  refine ⟨(p.pVaddr + i) / 4096 - p.pVaddr / 4096, ?_, by omega⟩
  rw [ProgHeader.occupyPages]
  split_ifs <;> omega

/-! ## Segments -/

/-- `segment_load` reads once, and changes no other byte of a page that was mapped. -/
theorem segmentLoad_leaves {p : ProgHeader} (hp : p.pVaddr < 2 ^ 32)
    (h : Returns (segmentLoad E f p) s true s') :
    (s.cursor.reads ≤ s'.cursor.reads ∧ s'.cursor.reads ≤ s.cursor.reads + 1) ∧
      ∀ a, s.mapped (a / 4096) = true → ¬p.Contains a → s'.mem a = s.mem a := by
  obtain ⟨b, t, hpages, hread⟩ := returns_bind.mp h
  rcases returns_ite.mp hread with ⟨rfl, h⟩ | ⟨-, h⟩
  · obtain ⟨-, hsame, hcursor⟩ := loadPages_spec hpages (by omega)
    rw [segmentRead, returns_modify_bind] at h
    obtain ⟨r, t₁, h1, h⟩ := returns_bind.mp h
    obtain ⟨c', hread, rfl⟩ := returns_onFile.mp h1
    have hreads := sysRead_reads hread
    dsimp only at hreads
    rw [sysLseek_reads, hcursor] at hreads
    cases r with
    | none =>
      obtain ⟨-, rfl⟩ := returns_pure.mp h
      exact ⟨hreads, fun a hmap _ ↦ hsame a hmap⟩
    | some x =>
      obtain ⟨n, data⟩ := x
      have hn := (sysRead_data hread).2.1
      dsimp only at h
      rw [returns_check_bind, returns_modify_bind] at h
      obtain ⟨-, rfl⟩ := returns_pure.mp h.2
      refine ⟨hreads, fun a hmap ha ↦ ?_⟩
      rw [ProgHeader.Contains] at ha
      exact (splice_of_disjoint (by omega)).trans (hsame a hmap)
  · cases (returns_pure.mp h).1

/-- A segment that ends within the file is put into the memory. -/
theorem segmentLoad_supplies {p : ProgHeader} (hp : p.pVaddr < 2 ^ 32)
    (hbuf : E.buffers s.cursor.reads = true) (hsize : f.size ≤ maxFileSize)
    (hend : p.pFilesz = 0 ∨ p.pOffset + p.pFilesz ≤ f.size)
    (h : Returns (segmentLoad E f p) s true s') : f.Supplies p s' := by
  intro i hi
  have hend := hend.resolve_left (by omega)
  obtain ⟨b, t, hpages, hread⟩ := returns_bind.mp h
  rcases returns_ite.mp hread with ⟨rfl, h⟩ | ⟨-, h⟩
  · obtain ⟨hmapped, -, hcursor⟩ := loadPages_spec hpages (by omega)
    rw [segmentRead, returns_modify_bind] at h
    obtain ⟨r, t₁, h1, h⟩ := returns_bind.mp h
    obtain ⟨c', hread, rfl⟩ := returns_onFile.mp h1
    dsimp only at hread
    have hpos : (sysLseek f p.pOffset t.cursor).pos = p.pOffset := sysLseek_pos hsize (by omega)
    cases r with
    | none =>
      refine absurd hread (sysRead_ne_none ?_ (by omega) hsize)
      rw [sysLseek_reads, hcursor]
      exact hbuf
    | some x =>
      obtain ⟨n, data⟩ := x
      obtain ⟨-, -, hdata, hall⟩ := sysRead_data hread
      rw [maxFileSize] at hsize
      have hn : n = p.pFilesz := hall (by omega) (by omega)
      dsimp only at h
      rw [returns_check_bind, returns_modify_bind] at h
      obtain ⟨hlast, h⟩ := h
      obtain ⟨-, rfl⟩ := returns_pure.mp h
      subst hn
      obtain ⟨k, hk, hpage⟩ := exists_page hlast hi
      refine ⟨by omega, ?_, ?_⟩
      · dsimp only
        rw [← hpage]
        exact hmapped k hk
      · dsimp only
        rw [splice_of_mem (by omega) (by omega), Nat.add_sub_cancel_left, hdata, hpos]
  · cases (returns_pure.mp h).1

theorem phdr_pVaddr_lt (f : Content) (k : ℕ) : (f.phdr k).pVaddr < 2 ^ 32 := le32_lt _ _

/-- Bytes that a later step leaves stay supplied. -/
theorem Content.Supplies.keep {p : ProgHeader} (h : f.Supplies p s) (hgrows : s.Grows s')
    (hmem : ∀ a, s.mapped (a / 4096) = true → p.Contains a → s'.mem a = s.mem a) :
    f.Supplies p s' := by
  intro i hi
  obtain ⟨h1, h2, h3⟩ := h i hi
  exact ⟨h1, hgrows.mapped _ h2, (hmem _ h2 ⟨by omega, by omega⟩).trans h3⟩

/-- **The loop over the headers.** From the header number `k` on, every loadable segment is put into
the memory, and the other bytes of the pages that were mapped stay. -/
theorem loadHeaders_supplies {left k : ℕ} (hwhole : f.Whole) (hapart : f.Apart)
    (hbuf : E.Buffered s.cursor (f.readCount left k)) (hsize : f.size ≤ maxFileSize)
    (hleft : k + left = f.ePhnum)
    (h : Returns (loadHeaders E f left (f.ePhoff + 32 * k)) s true s') :
    (∀ j, k ≤ j → f.Loadable j → f.Supplies (f.phdr j) s') ∧
      ∀ a, s.mapped (a / 4096) = true → (∀ j, k ≤ j → f.Loadable j → ¬(f.phdr j).Contains a) →
        s'.mem a = s.mem a := by
  induction left generalizing s k with
  | zero =>
    obtain ⟨-, rfl⟩ := returns_pure.mp h
    refine ⟨fun j hj hload ↦ ?_, fun _ _ _ ↦ rfl⟩
    have := hload.1
    omega
  | succ left ih =>
    have hheaders := hwhole.headers.resolve_left (by omega)
    rw [loadHeaders, returns_modify_bind] at h
    obtain ⟨r, t, h1, h⟩ := returns_bind.mp h
    obtain ⟨c', hread, rfl⟩ := returns_onFile.mp h1
    dsimp only at hread
    have hpos : (sysLseek f (f.ePhoff + 32 * k) s.cursor).pos = f.ePhoff + 32 * k :=
      sysLseek_pos hsize (by omega)
    have hreads := sysRead_reads hread
    rw [sysLseek_reads] at hreads
    rw [Content.readCount] at hbuf
    have hnext : (f.ePhoff + 32 * k + 32) % 2 ^ 32 = f.ePhoff + 32 * (k + 1) := by
      rw [maxFileSize] at hsize
      omega
    cases r with
    | none => cases (returns_pure.mp h).1
    | some x =>
      obtain ⟨n, header⟩ := x
      rcases returns_ite.mp h with ⟨-, h⟩ | ⟨-, h⟩
      · cases (returns_pure.mp h).1
      · have hheader : progHeader header = f.phdr k := by
          rw [(sysRead_data hread).2.2.1, hpos]
          rfl
        rw [hheader, hnext] at h
        rcases returns_ite.mp h with ⟨htype, h⟩ | ⟨htype, h⟩
        · obtain ⟨b, t, hseg, hrest⟩ := returns_bind.mp h
          rcases returns_ite.mp hrest with ⟨rfl, h⟩ | ⟨-, h⟩
          · have hk : f.Loadable k := ⟨by omega, htype⟩
            rw [if_pos htype] at hbuf
            obtain ⟨hseg_reads, hseg_mem⟩ := segmentLoad_leaves (phdr_pVaddr_lt f k) hseg
            dsimp only at hseg_reads
            obtain ⟨hlater, hmem⟩ :=
              ih (k := k + 1) (hbuf.after (by omega) (by omega)) (by omega) h
            have hgrows := within_segmentLoad E f _ _ _ _ hseg
            have hfirst := segmentLoad_supplies (phdr_pVaddr_lt f k)
              (hbuf _ hreads.1 (by dsimp only; omega)) hsize (hwhole.segments k hk) hseg
            refine ⟨fun j hj hload ↦ ?_, fun a ha hout ↦ ?_⟩
            · rcases hj.eq_or_lt with rfl | hlt
              · -- the segments behind it leave it alone
                refine hfirst.keep (within_loadHeaders E f _ _ _ _ _ h) fun a ha hin ↦ ?_
                exact hmem a ha fun j hj hload ↦ hapart k j hk hload (by omega) a hin
              · exact hlater j hlt hload
            · have hrest := hmem a (hgrows.mapped _ ha) fun j hj hload ↦ hout j (by omega) hload
              exact hrest.trans (hseg_mem a ha (hout k le_rfl hk))
          · cases (returns_pure.mp h).1
        · rw [if_neg htype] at hbuf
          obtain ⟨hlater, hmem⟩ := ih (k := k + 1) (hbuf.after hreads.1 hreads.2) (by omega) h
          refine ⟨fun j hj hload ↦ ?_, fun a ha hout ↦ ?_⟩
          · rcases hj.eq_or_lt with rfl | hlt
            · exact absurd hload.2 htype
            · exact hlater j hlt hload
          · exact hmem a ha fun j hj hload ↦ hout j (by omega) hload

/-! ## Files -/

/-- A file that is loaded has an ELF header, and its program headers were gone through. -/
theorem loadFile_headers {entry : ℕ} (hpos : s.cursor.pos = 0)
    (h : Returns (loadFile E f) s (some entry) s') :
    52 ≤ f.size ∧ ∃ c, s.cursor.reads ≤ c.reads ∧ c.reads ≤ s.cursor.reads + 1 ∧
      Returns (loadHeaders E f f.ePhnum f.ePhoff) { s with cursor := c } true s' := by
  obtain ⟨r, t, h1, h⟩ := returns_bind.mp h
  obtain ⟨c, hread, rfl⟩ := returns_onFile.mp h1
  cases r with
  | none => cases (returns_pure.mp h).1
  | some x =>
    obtain ⟨n, header⟩ := x
    obtain ⟨hlen, -, hdata, -⟩ := sysRead_data hread
    rw [hpos] at hlen hdata
    simp only [Nat.zero_add] at hlen hdata
    rcases returns_ite.mp h with ⟨-, h⟩ | ⟨hok, h⟩
    · cases (returns_pure.mp h).1
    · have hn : n = 52 := by
        by_contra hne
        exact hok (.inl hne)
      obtain ⟨b, t, hheaders, hrest⟩ := returns_bind.mp h
      rcases returns_ite.mp hrest with ⟨rfl, h⟩ | ⟨-, h⟩
      · obtain ⟨-, rfl⟩ := returns_pure.mp h
        refine ⟨by omega, c, (sysRead_reads hread).1, (sysRead_reads hread).2, ?_⟩
        rw [hdata] at hheaders
        exact hheaders
      · cases (returns_pure.mp h).1

/-- `load` without `sys_open` and `sys_close`. -/
theorem load_loadFile {entry : ℕ} {g : ℤ} (hfile : E.file = some (f, g))
    (h : Returns (load E) s (some entry) s') : ∃ t t', t.cursor = ⟨0, s.cursor.reads⟩ ∧
      Returns (loadFile E f) t (some entry) t' ∧ s'.mem = t'.mem ∧ s'.mapped = t'.mapped := by
  rw [load, returns_get_bind, hfile] at h
  cases hfd : s.freeFd with
  | none =>
    rw [hfd] at h
    cases (returns_pure.mp h).1
  | some fd =>
    rw [hfd] at h
    dsimp only at h
    rw [returns_modify_bind] at h
    obtain ⟨r, t, hload, h⟩ := returns_bind.mp h
    rw [returns_modify_bind] at h
    obtain ⟨rfl, rfl⟩ := returns_pure.mp h
    exact ⟨_, t, rfl, hload, rfl, rfl⟩

end Loading

/-! ## A file with one segment -/

/-- The loadable segments lie above the first user page. -/
def Content.AboveFirst (f : Content) : Prop :=
  ∀ k, f.Loadable k → userVaddrStart + 4096 ≤ (f.phdr k).pVaddr

/-- The ELF header, and one program header for a byte at `0x8049000` that is said to be at `offset`
in the file. The byte 84 of the file is 42. -/
def oneSegment (size : ℕ) (offset : UInt8) : Content :=
  ⟨size, fun i ↦ (([(0, 0x7f), (1, 0x45), (2, 0x4c), (3, 0x46), (4, 1), (5, 1), (6, 1), (16, 2),
    (18, 3), (20, 1), (25, 0x90), (26, 4), (27, 8), (28, 52), (42, 32), (44, 1), (52, 1),
    (56, offset), (61, 0x90), (62, 4), (63, 8), (68, 1), (84, 42)] :
      List (ℕ × UInt8)).lookup i).getD 0⟩

/-- The file is there, and so are the buffers. -/
def settingOf (f : Content) : Setting := ⟨some (f, 7), fun _ ↦ true⟩

theorem oneSegment_loadable {size : ℕ} {offset : UInt8} {k : ℕ}
    (h : (oneSegment size offset).Loadable k) : k = 0 := by
  have hlt : k < 1 := h.1
  omega

theorem oneSegment_apart (size : ℕ) (offset : UInt8) : (oneSegment size offset).Apart := by
  intro j k hj hk hne
  exact absurd ((oneSegment_loadable hj).trans (oneSegment_loadable hk).symm) hne

end GlowOS.Exec
