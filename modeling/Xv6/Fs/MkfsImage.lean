import Xv6.Fs.MkfsWrite

/-!
# Fs — MkfsImage

What `main` of `mkfs.c` builds: a root directory with `.`, `..` and an entry for each file, the files
with their bytes in the inodes after it, and no block that is not marked or that belongs to two
inodes (`Built`).

* `Built.addFile`: one pass of the loop over the files.
* `main_ok`: `main` comes to its end, and the kernel reads from the image what was built.
-/

namespace Xv6

open Lib Function List Nat

namespace Mkfs

open Disk

variable {m m' : Mkfs} {d d' : Disk} {ip ip' : Dinode} {n inum : Nat} {files : List SrcFile}

/-! ### Appending piece by piece -/

/-- The bytes `src` have been appended to inode `inum`. -/
structure Appended (inum : Nat) (src : List UInt8) (d d' : Disk) : Prop where
  consistent : Consistent mkfsSuper d'
  self : d'.content inum = d.content inum ++ src
  fields : d'.dinode inum = { d.dinode inum with
    size := (d.dinode inum).size + src.length, addrs := (d'.dinode inum).addrs }
  dinode : ∀ i, i ≠ inum → d'.dinode i = d.dinode i
  other : ∀ i, d.Alloc mkfsSuper i → i ≠ inum → d'.content i = d.content i

namespace Appended

variable {src : List UInt8}

theorem of_written (h : Written mkfsSuper inum (d.dinode inum).size src d d') :
    Appended inum src d d' := by
  refine ⟨h.consistent, ?_, ?_, h.dinode, h.other⟩
  · have hlen := length_content d inum
    rw [h.self, take_of_length_le (by omega), drop_eq_nil_of_le (by omega), append_nil]
  · have hmax : max (d.dinode inum).size ((d.dinode inum).size + src.length) =
        (d.dinode inum).size + src.length := max_eq_right (le_add_right _ _)
    have hfields := h.fields
    rw [hmax] at hfields
    exact hfields

theorem type (h : Appended inum src d d') (i : Nat) : (d'.dinode i).type = (d.dinode i).type := by
  by_cases e : i = inum
  · rw [e, h.fields]
  · rw [h.dinode i e]

theorem nlink (h : Appended inum src d d') (i : Nat) :
    (d'.dinode i).nlink = (d.dinode i).nlink := by
  by_cases e : i = inum
  · rw [e, h.fields]
  · rw [h.dinode i e]

theorem alloc {i : Nat} (h : Appended inum src d d') :
    d'.Alloc mkfsSuper i ↔ d.Alloc mkfsSuper i := by
  unfold Alloc
  rw [h.type i]

theorem refl (hc : Consistent mkfsSuper d) (inum : Nat) : Appended inum [] d d :=
  ⟨hc, (append_nil _).symm, rfl, fun _ _ => rfl, fun _ _ _ => rfl⟩

theorem trans {s₁ s₂ : List UInt8} {d₁ : Disk} (h₁ : Appended inum s₁ d d₁)
    (h₂ : Appended inum s₂ d₁ d') : Appended inum (s₁ ++ s₂) d d' := by
  refine ⟨h₂.consistent, ?_, ?_, fun i hi => ?_, fun i ha hi => ?_⟩
  · rw [h₂.self, h₁.self, append_assoc]
  · have hsize : (d₁.dinode inum).size = (d.dinode inum).size + s₁.length := by rw [h₁.fields]
    rw [h₂.fields, hsize, h₁.fields, length_append, add_assoc]
  · rw [h₂.dinode i hi, h₁.dinode i hi]
  · rw [h₂.other i (h₁.alloc.mpr ha) hi, h₁.other i ha hi]

end Appended

/-- **All pieces of a file are appended.** -/
theorem appendAll (inum : Nat) (hi : inum < mkfsSuper.ninodes) :
    ∀ (reads : List (List UInt8)) {m : Mkfs} {d : Disk}, Shows n m d → Consistent mkfsSuper d →
    (d.dinode inum).type ≠ .free → (d.dinode inum).Packable →
    (d.dinode inum).size + reads.flatten.length ≤ (NDIRECT + NINDIRECT) * BSIZE →
    m.freeblock + blocksOf ((d.dinode inum).size + reads.flatten.length) ≤
      mkfsSuper.size + blocksOf (d.dinode inum).size →
    ∃ m' d', reads.foldlM (fun m buf => m.iappend inum buf) m = .ok m' ∧ Shows n m' d' ∧
      Appended inum reads.flatten d d' ∧ (d'.dinode inum).Packable ∧
      m'.freeblock + blocksOf (d.dinode inum).size ≤
        m.freeblock + blocksOf ((d.dinode inum).size + reads.flatten.length)
  | [], m, d, h, hc, _, hp, _, _ => ⟨m, d, rfl, h, .refl hc inum, hp, le_refl _⟩
  | buf :: reads, m, d, h, hc, ht, hp, hmax, hroom => by
    rw [flatten_cons, length_append] at hmax hroom ⊢
    have hmono := blocksOf_mono (show (d.dinode inum).size + buf.length ≤
      (d.dinode inum).size + (buf.length + reads.flatten.length) by omega)
    obtain ⟨m₁, d₁, h₁, hs₁, hw, hp₁, hroom₁⟩ :=
      h.iappend buf hc ⟨hi, ht⟩ hp (by omega) (by omega)
    have ha := Appended.of_written hw
    have hsize : (d₁.dinode inum).size = (d.dinode inum).size + buf.length := by rw [ha.fields]
    obtain ⟨m', d', h', hs', ha', hp', hroom'⟩ := appendAll inum hi reads hs₁ ha.consistent
      (by rw [ha.type]; exact ht) hp₁ (by rw [hsize]; omega) (by
        rw [hsize, add_assoc]
        omega)
    refine ⟨m', d', ?_, hs', ha.trans ha', hp', ?_⟩
    · rw [foldlM_cons, h₁]
      exact h'
    · rw [hsize, add_assoc] at hroom'
      omega

/-! ### The files one by one -/

/-- A file: its name on the command line, and what `read` returns. -/
abbrev SrcFile := Str × List (List UInt8)

namespace SrcFile

/-- The bytes of the file. -/
def bytes (f : SrcFile) : List UInt8 := f.2.flatten

end SrcFile

/-- The entries of the root directory. -/
def entries (files : List SrcFile) : List Dirent :=
  ⟨ROOTINO, dot⟩ :: ⟨ROOTINO, dotdot⟩ :: files.mapIdx fun k f => ⟨k + 2, stored f.1⟩

/-- The blocks that the files take, without those of the root directory. -/
def fileBlocks (files : List SrcFile) : Nat := (files.map fun f => blocksOf f.bytes.length).sum

/-- The files `files` have been written. -/
structure Built (files : List SrcFile) (m : Mkfs) (d : Disk) : Prop where
  shows : Shows (files.length + 2) m d
  consistent : Consistent mkfsSuper d
  root : (d.dinode ROOTINO).type = .dir ∧ (d.dinode ROOTINO).nlink = 1
  packable : (d.dinode ROOTINO).Packable
  entries : d.content ROOTINO = (entries files).flatMap Dirent.toBytes
  file : ∀ k f, files[k]? = some f → (d.dinode (k + 2)).type = .file ∧ d.content (k + 2) = f.bytes
  free : ∀ i, files.length + 2 ≤ i → (d.dinode i).type = .free
  room : m.freeblock ≤ mkfsSuper.nmeta + blocksOf (DESIZ * (files.length + 2)) + fileBlocks files

theorem length_toBytes (de : Dirent) : de.toBytes.length = DESIZ := by
  unfold Dirent.toBytes strncpy
  simp only [length_cons, length_append, length_map, length_take, length_replicate, DESIZ]
  omega

theorem length_flatMap_toBytes (l : List Dirent) :
    (l.flatMap Dirent.toBytes).length = DESIZ * l.length := by
  induction l with
  | nil => rfl
  | cons de l ih =>
    rw [flatMap_cons, length_append, ih, length_toBytes, length_cons]
    rw [mul_succ, add_comm]

theorem length_entries (files : List SrcFile) : (entries files).length = files.length + 2 := by
  simp [entries]

theorem entries_snoc (files : List SrcFile) (f : SrcFile) :
    entries (files ++ [f]) = entries files ++ [⟨files.length + 2, stored f.1⟩] := by
  simp [entries, mapIdx_append]

theorem fileBlocks_append (files rest : List SrcFile) :
    fileBlocks (files ++ rest) = fileBlocks files + fileBlocks rest := by
  simp [fileBlocks]

theorem fileBlocks_snoc (files : List SrcFile) (f : SrcFile) :
    fileBlocks (files ++ [f]) = fileBlocks files + blocksOf f.bytes.length := by
  simp [fileBlocks]

/-- The bytes of an inode depend on the inode and on the data blocks. -/
theorem content_congr {i : Nat} (hd : d'.dinode i = d.dinode i) (hdata : d'.data = d.data) :
    d'.content i = d.content i := by
  have hbyte : ∀ k, d'.byteAt i k = d.byteAt i k := fun k => byteAt_congr fun p _ => by
    unfold block
    rw [ptr_congr hd hdata, hdata]
  unfold content
  rw [hd]
  exact map_congr_left fun k _ => hbyte k

/-- The inode that `ialloc` makes. -/
def newInode (type : FileType) : Dinode := { Dinode.zero with type := type, nlink := 1 }

theorem packable_newInode (type : FileType) : (newInode type).Packable := by
  have h₀ : IsShort 0 := ⟨by decide, by decide⟩
  have h₁ : IsShort 1 := ⟨by decide, by decide⟩
  exact ⟨h₀, h₀, h₁, zero_lt_succ _, fun _ => zero_lt_succ _⟩

theorem blocksOf_zero : blocksOf 0 = 0 := by decide

theorem Shows.ialloc (h : Shows n m d) (hn : n < mkfsSuper.ninodes) (type : FileType) :
    Shows (n + 1) (m.ialloc type).2 (d.put n (newInode type)) := by
  have hnext : Shows (n + 1) { m with freeinode := m.freeinode + 1 } d :=
    ⟨by rw [h.freeinode], h.bitmap, h.dinode, h.data, h.clear, h.low, h.high, h.super⟩
  have hw : Shows (n + 1) (Mkfs.winode _ n (newInode type)) (d.put n (newInode type)) :=
    hnext.winode hn (packable_newInode type) rfl rfl rfl
  rw [← h.freeinode] at hw ⊢
  exact hw

namespace Built

variable {files : List SrcFile} {f : SrcFile}

theorem size_root (h : Built files m d) : (d.dinode ROOTINO).size = DESIZ * (files.length + 2) := by
  rw [← length_content, h.entries, length_flatMap_toBytes, length_entries]

/-- **One pass of the loop over the files.** -/
theorem addFile (h : Built files m d) (hn : files.length + 2 < mkfsSuper.ninodes)
    (hname : slash ∉ f.1) (hmax : f.bytes.length ≤ (NDIRECT + NINDIRECT) * BSIZE)
    (hroom : mkfsSuper.nmeta + blocksOf (DESIZ * (files.length + 3)) + fileBlocks files +
      blocksOf f.bytes.length ≤ mkfsSuper.size) :
    ∃ m' d', m.addFile f.1 f.2 = .ok m' ∧ Built (files ++ [f]) m' d' := by
  set n := files.length + 2 with hndef
  have hr : m.freeblock ≤ mkfsSuper.nmeta + blocksOf (DESIZ * n) + fileBlocks files := h.room
  -- `ialloc`
  have hs₁ := h.shows.ialloc hn .file
  set d₁ := d.put n (newInode .file) with hd₁
  have hfree : (d.dinode n).type = .free := h.free n (le_refl _)
  have hc₁ : Consistent mkfsSuper d₁ :=
    consistent_update h.consistent rfl rfl rfl rfl rfl (.inl fun ha => ha.2 hfree)
  have hne₁ : ∀ i, i ≠ n → d₁.dinode i = d.dinode i := fun i hi => put_ne hi
  have hroot : ROOTINO ≠ n := by simp only [ROOTINO]; omega
  -- the entry in the root directory
  have hsize : (d₁.dinode ROOTINO).size = DESIZ * n := by rw [hne₁ _ hroot, h.size_root]
  have hnext : DESIZ * (files.length + 3) = DESIZ * n + DESIZ := by rw [hndef]; rfl
  rw [hnext] at hroom
  have hlen := length_toBytes ⟨n, stored f.1⟩
  have hra₁ : d₁.Alloc mkfsSuper ROOTINO := by
    refine ⟨by decide, ?_⟩
    rw [hne₁ _ hroot, h.root.1]
    decide
  obtain ⟨m₂, d₂, h₂, hs₂, hw₂, hp₂, hroom₂⟩ := hs₁.iappend (Dirent.toBytes ⟨n, stored f.1⟩) hc₁
    hra₁ (by rw [hne₁ _ hroot]; exact h.packable) (by
      rw [hsize, hlen]
      have : DESIZ * n + DESIZ ≤ DESIZ * mkfsSuper.ninodes := by
        rw [← mul_succ]
        exact mul_le_mul_left _ hn
      exact le_trans this (by decide))
    (by
      rw [hsize, hlen]
      show m.freeblock + _ ≤ _
      omega)
  have ha₂ := Appended.of_written hw₂
  rw [hsize, hlen] at hroom₂
  have hroom₂ : m₂.freeblock + blocksOf (DESIZ * n) ≤
    m.freeblock + blocksOf (DESIZ * n + DESIZ) := hroom₂
  -- the bytes of the file
  have hself₂ : d₂.dinode n = newInode .file := by
    rw [ha₂.dinode n hroot.symm]
    exact put_self d n _
  have hzero : (d₂.dinode n).size = 0 := by rw [hself₂]; rfl
  obtain ⟨m₃, d₃, h₃, hs₃, ha₃, -, hroom₃⟩ := appendAll n hn f.2 hs₂ ha₂.consistent
    (by rw [hself₂]; exact FileType.noConfusion) (by rw [hself₂]; exact packable_newInode _)
    (by rw [hzero, zero_add]; exact hmax) (by
      rw [hzero, zero_add, blocksOf_zero]
      change m₂.freeblock + blocksOf f.bytes.length ≤ _
      omega)
  rw [hzero, zero_add, blocksOf_zero] at hroom₃
  have hroom₃ : m₃.freeblock + 0 ≤ m₂.freeblock + blocksOf f.bytes.length := hroom₃
  have hinum : (m.ialloc .file).1 = n := h.shows.freeinode
  refine ⟨m₃, d₃, ?_, ⟨?_, ha₃.consistent, ?_, ?_, ?_, fun k g hk => ?_, fun i hi => ?_, ?_⟩⟩
  · unfold Mkfs.addFile
    rw [if_neg hname]
    dsimp only
    rw [hinum, h₂]
    exact h₃
  · rw [length_append]
    exact hs₃
  · rw [ha₃.type, ha₃.nlink, ha₂.type, ha₂.nlink, hne₁ _ hroot]
    exact h.root
  · rw [ha₃.dinode _ hroot]
    exact hp₂
  · rw [ha₃.other _ (ha₂.alloc.mpr hra₁) hroot, ha₂.self, content_congr (hne₁ _ hroot) rfl, h.entries,
      entries_snoc, flatMap_append, flatMap_cons, flatMap_nil, append_nil]
  · by_cases hlast : k < files.length
    · -- a file from before
      rw [getElem?_append_left hlast] at hk
      obtain ⟨htype, hcont⟩ := h.file k g hk
      have hkn : k + 2 ≠ n := by omega
      have hkr : k + 2 ≠ ROOTINO := by simp only [ROOTINO]; omega
      have halloc : d₁.Alloc mkfsSuper (k + 2) := by
        refine ⟨by omega, ?_⟩
        rw [hne₁ _ hkn, htype]
        decide
      refine ⟨?_, ?_⟩
      · rw [ha₃.type, ha₂.type, hne₁ _ hkn]
        exact htype
      · rw [ha₃.other _ (ha₂.alloc.mpr halloc) hkn, ha₂.other _ halloc hkr,
          content_congr (hne₁ _ hkn) rfl]
        exact hcont
    · rw [getElem?_append_right (by omega)] at hk
      obtain ⟨hk₀, rfl⟩ : k - files.length = 0 ∧ g = f := by
        rcases e : k - files.length with _ | j
        · rw [e] at hk
          exact ⟨rfl, (Option.some.inj hk).symm⟩
        · rw [e] at hk
          cases hk
      obtain rfl : k = files.length := by omega
      refine ⟨?_, ?_⟩
      · rw [ha₃.type, hself₂]
        rfl
      · have hnil : d₂.content n = [] := eq_nil_of_length_eq_zero (by
          rw [length_content, hzero])
        rw [ha₃.self, hnil]
        rfl
  · rw [length_append] at hi
    have hin : i ≠ n := by
      have : files.length + 1 + 2 ≤ i := hi
      omega
    have hir : i ≠ ROOTINO := by
      have : files.length + 1 + 2 ≤ i := hi
      simp only [ROOTINO]
      omega
    rw [ha₃.type, ha₂.type, hne₁ i hin]
    exact h.free i (by
      have : files.length + 1 + 2 ≤ i := hi
      omega)
  · rw [length_append, fileBlocks_snoc]
    change m₃.freeblock ≤ _ + blocksOf (DESIZ * n + DESIZ) + _
    omega

/-- **The loop over the files.** -/
theorem addFiles : ∀ (rest : List SrcFile) {files : List SrcFile} {m : Mkfs} {d : Disk},
    Built files m d → (files ++ rest).length + 2 ≤ mkfsSuper.ninodes →
    (∀ f ∈ rest, slash ∉ f.1 ∧ f.bytes.length ≤ (NDIRECT + NINDIRECT) * BSIZE) →
    mkfsSuper.nmeta + blocksOf (DESIZ * ((files ++ rest).length + 2)) +
      fileBlocks (files ++ rest) ≤ mkfsSuper.size →
    ∃ m' d', rest.foldlM (fun m f => m.addFile f.1 f.2) m = .ok m' ∧ Built (files ++ rest) m' d'
  | [], files, m, d, h, _, _, _ => ⟨m, d, rfl, by rw [append_nil]; exact h⟩
  | f :: rest, files, m, d, h, hn, hf, hroom => by
    obtain ⟨hname, hmax⟩ := hf f mem_cons_self
    have happ : files ++ f :: rest = files ++ [f] ++ rest := by simp
    rw [happ] at hn hroom ⊢
    have hlen : (files ++ [f] ++ rest).length = files.length + 1 + rest.length := by
      rw [length_append, length_append]
      rfl
    have hblocks : fileBlocks (files ++ [f]) ≤ fileBlocks (files ++ [f] ++ rest) := by
      rw [fileBlocks_append (files ++ [f])]
      exact le_add_right _ _
    have hmono := blocksOf_mono (show DESIZ * (files.length + 3) ≤
      DESIZ * ((files ++ [f] ++ rest).length + 2) from mul_le_mul_left _ (by omega))
    rw [fileBlocks_snoc] at hblocks
    obtain ⟨m₁, d₁, h₁, hb₁⟩ := h.addFile (by omega) hname hmax (by omega)
    obtain ⟨m', d', h', hb'⟩ := addFiles rest hb₁ hn (fun g hg => hf g (mem_cons_of_mem _ hg)) hroom
    refine ⟨m', d', ?_, hb'⟩
    rw [foldlM_cons, h₁]
    exact h'

end Built

/-! ### `main` -/

/-- The disk when only the root directory is there, and empty. -/
def rootOnly : Disk :=
  { blank mkfsSuper ROOTINO with
    dinode := update (fun _ => Dinode.zero) ROOTINO (newInode .dir) }

theorem rootOnly_dinode (i : Nat) :
    rootOnly.dinode i = if i = ROOTINO then newInode .dir else Dinode.zero := by
  unfold rootOnly
  dsimp only
  rw [update_apply]

theorem rootOnly_consistent : Consistent mkfsSuper rootOnly :=
  consistent_update (blank_consistent mkfsSuper ROOTINO) (update_idem _ _ _).symm rfl rfl
    rfl rfl (.inr (blank_dinode mkfsSuper ROOTINO ROOTINO).1)

theorem rinode_blankImage (m : Mkfs) (h : m.img = blankImage) (i : Nat) :
    m.rinode i = Dinode.zero := by
  have hzero : m.rinode i = Dinode.ofWords fun _ => 0 := by
    unfold rinode Image.dinode
    rw [h]
    refine ofWords_congr fun k _ => ?_
    unfold blankImage
    rw [update_of_ne (iblock_ne_one i)]
    rfl
  rw [hzero]
  simp [Dinode.ofWords, Dinode.zero, FileType.ofCode, toShort]

/-- `main` up to the loop over the files. -/
theorem built_nil : ∃ m₁ m₂ d, (Mkfs.ialloc ⟨blankImage, 1, mkfsSuper.nmeta⟩ .dir).2.iappend ROOTINO
      (Dirent.toBytes ⟨ROOTINO, dot⟩) = .ok m₁ ∧
    m₁.iappend ROOTINO (Dirent.toBytes ⟨ROOTINO, dotdot⟩) = .ok m₂ ∧ Built [] m₂ d := by
  have hs₀ : Shows 1 ⟨blankImage, 1, mkfsSuper.nmeta⟩
      { blank mkfsSuper ROOTINO with dinode := fun _ => Dinode.zero } := by
    have hclear : ∀ b, mkfsSuper.nmeta ≤ b → blankImage b = Block.zero := fun b hb =>
      update_of_ne (by
        have : mkfsSuper.nmeta = 59 := by decide
        omega) _ _
    refine ⟨rfl, fun b => rfl, fun i _ => (rinode_blankImage _ rfl i).symm, fun b hb => ?_,
      hclear, le_refl _, by decide, ?_⟩
    · exact (hclear b hb).symm
    · exact update_self 1 superBlock fun _ => Block.zero
  have hs : Shows 2 (Mkfs.ialloc ⟨blankImage, 1, mkfsSuper.nmeta⟩ .dir).2 rootOnly :=
    hs₀.ialloc (by decide) .dir
  have hself : rootOnly.dinode ROOTINO = newInode .dir := rootOnly_dinode ROOTINO
  have hi : rootOnly.Alloc mkfsSuper ROOTINO := ⟨by decide, by rw [hself]; exact FileType.noConfusion⟩
  have hreads : [Dirent.toBytes ⟨ROOTINO, dot⟩, Dirent.toBytes ⟨ROOTINO, dotdot⟩].flatten =
      (entries []).flatMap Dirent.toBytes := rfl
  have hsize : (rootOnly.dinode ROOTINO).size = 0 := by rw [hself]; rfl
  obtain ⟨m₂, d, h₂, hs₂, ha, hp, hroom⟩ := appendAll ROOTINO (by decide)
    [Dirent.toBytes ⟨ROOTINO, dot⟩, Dirent.toBytes ⟨ROOTINO, dotdot⟩] hs rootOnly_consistent hi.2
    (by rw [hself]; exact packable_newInode _) (by
      rw [hsize, hreads, length_flatMap_toBytes]
      decide)
    (by
      rw [hsize, hreads, length_flatMap_toBytes]
      decide)
  rw [hreads] at ha hroom
  obtain ⟨m₁, h₁, h₂⟩ := of_bind h₂
  obtain ⟨m₂', h₂, h₃⟩ := of_bind h₂
  cases h₃
  refine ⟨m₁, m₂, d, h₁, h₂, ⟨hs₂, ha.consistent, ?_, hp, ?_, fun k f hk => ?_, fun i hi' => ?_, ?_⟩⟩
  · rw [ha.type, ha.nlink, hself]
    exact ⟨rfl, rfl⟩
  · have hnil : rootOnly.content ROOTINO = [] :=
      eq_nil_of_length_eq_zero (by rw [length_content, hsize])
    rw [ha.self, hnil, nil_append]
  · cases hk
  · have hne : i ≠ ROOTINO := by
      have : 2 ≤ i := hi'
      simp only [ROOTINO]
      omega
    rw [ha.type, rootOnly_dinode, if_neg hne]
    rfl
  · rw [hsize, length_flatMap_toBytes, zero_add, blocksOf_zero] at hroom
    exact hroom

/-! ### What the kernel finds -/

/-- The disk `e` has the pointers and the data of `d`. -/
structure SameBlocks (d e : Disk) : Prop where
  inode : ∀ i, i < mkfsSuper.ninodes →
    (e.dinode i).type = (d.dinode i).type ∧ (e.dinode i).addrs = (d.dinode i).addrs
  data : ∀ b, mkfsSuper.nmeta ≤ b → e.data b = d.data b
  bitmap : ∀ b, b < mkfsSuper.size → e.bitmap b = d.bitmap b

namespace SameBlocks

variable {e : Disk} {i : Nat}

theorem alloc (h : SameBlocks d e) : e.Alloc mkfsSuper i ↔ d.Alloc mkfsSuper i :=
  and_congr_right fun hi => by rw [(h.inode i hi).1]

theorem ptr (h : SameBlocks d e) (ho : d.Owned mkfsSuper) (hi : d.Alloc mkfsSuper i)
    (q : BlockPtr) : e.ptr i q = d.ptr i q := by
  have haddrs := (h.inode i hi.1).2
  cases q with
  | direct | indirect => unfold Disk.ptr; rw [haddrs]
  | entry j =>
    unfold Disk.ptr
    dsimp only
    rw [haddrs]
    by_cases h₀ : (d.dinode i).addrs INDIRECT = 0
    · rw [if_pos h₀, if_pos h₀]
    · have hlow : mkfsSuper.nmeta ≤ (d.dinode i).addrs INDIRECT :=
        (ho.range hi (q := .indirect) h₀).1
      rw [if_neg h₀, if_neg h₀, h.data _ hlow]

theorem byteAt (h : SameBlocks d e) (ho : d.Owned mkfsSuper) (hi : d.Alloc mkfsSuper i) (k : Nat) :
    e.byteAt i k = d.byteAt i k := by
  refine byteAt_congr fun p _ => ?_
  unfold block
  rw [h.ptr ho hi]
  by_cases h₀ : d.ptr i p = 0
  · rw [if_pos h₀, if_pos h₀]
  · rw [if_neg h₀, if_neg h₀, h.data _ (ho.range hi h₀).1]

end SameBlocks

/-- Byte `k` of inode `i` is in a block. -/
def Present (e : Disk) (i k : Nat) : Prop := ∃ p, ptrOf (k / BSIZE) = some p ∧ e.ptr i p ≠ 0

/-- The files are on the disk `e`. -/
structure OnDisk (files : List SrcFile) (e : Disk) : Prop where
  root : (e.dinode ROOTINO).type = .dir ∧ (e.dinode ROOTINO).nlink = 1
  size : DESIZ * (files.length + 2) ≤ (e.dinode ROOTINO).size
  present : ∀ k < DESIZ * (files.length + 2), Present e ROOTINO k
  entries : (List.range (DESIZ * (files.length + 2))).map (e.byteAt ROOTINO) =
    (entries files).flatMap Dirent.toBytes
  file : ∀ k f, files[k]? = some f → (e.dinode (k + 2)).type = .file ∧
    e.content (k + 2) = f.bytes ∧ ∀ j < (e.dinode (k + 2)).size, Present e (k + 2) j
  used : ∀ i q, e.Alloc mkfsSuper i → e.ptr i q ≠ 0 → e.bitmap (e.ptr i q) = true
  once : ∀ i j q r, e.Alloc mkfsSuper i → e.Alloc mkfsSuper j → e.ptr i q ≠ 0 →
    e.ptr i q = e.ptr j r → i = j ∧ q = r

theorem Built.onDisk {e : Disk} (h : Built files m d) (hn : files.length + 2 ≤ mkfsSuper.ninodes)
    (hs : SameBlocks d e) (hroot : e.dinode ROOTINO = { d.dinode ROOTINO with
      size := ((d.dinode ROOTINO).size / BSIZE + 1) * BSIZE })
    (hfile : ∀ i, i < mkfsSuper.ninodes → i ≠ ROOTINO → e.dinode i = d.dinode i) :
    OnDisk files e := by
  have ho := h.consistent.owned
  have hra : d.Alloc mkfsSuper ROOTINO := ⟨by decide, by rw [h.root.1]; decide⟩
  have hsize := h.size_root
  refine ⟨?_, ?_, fun k hk => ?_, ?_, fun k f hk => ?_, fun i q hi hq => ?_,
    fun i j q r hi hj hq he => ?_⟩
  · rw [hroot]
    exact h.root
  · rw [hroot, ← hsize]
    simp only [BSIZE]
    omega
  · obtain ⟨p, hp, hp₀⟩ := h.consistent.byte hra (k := k) (by rw [hsize]; exact hk)
    exact ⟨p, hp, by rw [hs.ptr ho hra]; exact hp₀⟩
  · rw [← h.entries, content, hsize]
    exact map_congr_left fun k _ => hs.byteAt ho hra k
  · have hk₂ : k + 2 < mkfsSuper.ninodes := by
      have := (List.getElem?_eq_some_iff.mp hk).1
      omega
    have hne : k + 2 ≠ ROOTINO := by simp only [ROOTINO]; omega
    obtain ⟨htype, hcont⟩ := h.file k f hk
    have hka : d.Alloc mkfsSuper (k + 2) := ⟨hk₂, by rw [htype]; decide⟩
    rw [hfile _ hk₂ hne]
    refine ⟨htype, ?_, fun j hj => ?_⟩
    · rw [← hcont]
      unfold content
      rw [hfile _ hk₂ hne]
      exact map_congr_left fun j _ => hs.byteAt ho hka j
    · obtain ⟨p, hp, hp₀⟩ := h.consistent.byte hka hj
      exact ⟨p, hp, by rw [hs.ptr ho hka]; exact hp₀⟩
  · have hi := hs.alloc.mp hi
    rw [hs.ptr ho hi] at hq ⊢
    have hr := ho.range hi hq
    rw [hs.bitmap _ hr.2]
    exact (ho.used_iff hr.2).mpr (.inr ⟨(i, q), held_of_ptr hi hq⟩)
  · have hi := hs.alloc.mp hi
    have hj := hs.alloc.mp hj
    rw [hs.ptr ho hi] at hq he
    rw [hs.ptr ho hj] at he
    exact ho.ptr_inj hi hj hq he

/-- **`mkfs` builds an image with the files**, if they fit. -/
theorem main_ok (hn : files.length + 2 ≤ mkfsSuper.ninodes)
    (hf : ∀ f ∈ files, slash ∉ f.1 ∧ f.bytes.length ≤ (NDIRECT + NINDIRECT) * BSIZE)
    (hroom : mkfsSuper.nmeta + blocksOf (DESIZ * (files.length + 2)) + fileBlocks files ≤
      mkfsSuper.size) :
    ∃ m, main files = .ok m ∧ m.img 1 = superBlock ∧
      OnDisk files (Disk.ofImage mkfsSuper m.img) := by
  obtain ⟨m₁, m₂, d₂, h₁, h₂, hb₂⟩ := built_nil
  obtain ⟨m, d, hm, hb⟩ := Built.addFiles files hb₂ hn hf hroom
  rw [nil_append] at hb
  -- the size of the root directory is rounded up
  set v : Dinode := { m.rinode ROOTINO with
    size := ((m.rinode ROOTINO).size / BSIZE + 1) * BSIZE } with hv
  have hdroot : m.rinode ROOTINO = d.dinode ROOTINO := (hb.shows.dinode ROOTINO (by decide)).symm
  have hpack : v.Packable := by
    have hp := hb.packable
    have hsize := hb.size_root
    refine ⟨?_, ?_, ?_, ?_, ?_⟩
    · rw [hv, hdroot]; exact hp.major
    · rw [hv, hdroot]; exact hp.minor
    · rw [hv, hdroot]; exact hp.nlink
    · rw [hv, hdroot, hsize]
      have hle : DESIZ * (files.length + 2) ≤ DESIZ * mkfsSuper.ninodes :=
        mul_le_mul_left _ hn
      have hlt : DESIZ * mkfsSuper.ninodes + BSIZE < UINT := by decide
      have hdiv := div_mul_le_self (DESIZ * (files.length + 2)) BSIZE
      show (DESIZ * (files.length + 2) / BSIZE + 1) * BSIZE < UINT
      rw [succ_mul]
      omega
    · rw [hv, hdroot]; exact hp.addrs
  have hused : m.freeblock < BSIZE * 8 :=
    lt_of_le_of_lt hb.shows.high (by decide)
  set m' := (m.winode ROOTINO v).wsect mkfsSuper.bmapstart (Block.ofBytes (usedBits m.freeblock))
  have hballoc : (m.winode ROOTINO v).balloc m.freeblock = .ok m' := if_pos hused
  have hinode : ∀ i, i < mkfsSuper.ninodes →
      m'.rinode i = if i = ROOTINO then v else d.dinode i := by
    intro i hi
    rw [rinode_wsect (Nat.ne_of_lt (mkfsSuper.inode_blocks i hi)), rinode_winode hpack,
      hb.shows.dinode i hi]
  have hkeep : ∀ b, b ≠ mkfsSuper.bmapstart → b ≠ mkfsSuper.iblock ROOTINO →
      m'.img b = m.img b := fun b hmap hino =>
    (update_of_ne hmap _ _).trans (winode_img hino)
  have hdata : ∀ b, mkfsSuper.nmeta ≤ b → m'.img b = m.img b := by
    intro b hlow
    have hmap : b ≠ mkfsSuper.bmapstart := ne_of_gt (lt_of_lt_of_le (by decide) hlow)
    have hino : b ≠ mkfsSuper.iblock ROOTINO :=
      ne_of_gt (lt_of_lt_of_le (iblock_lt (by decide)) hlow)
    exact hkeep b hmap hino
  have hsuper : m'.img 1 = superBlock := by
    rw [hkeep 1 (by decide) (iblock_ne_one ROOTINO).symm]
    exact hb.shows.super
  refine ⟨m', ?_, hsuper, hb.onDisk hn ⟨fun i hi => ?_, fun b hlow => ?_, fun b hlt => ?_⟩ ?_
    fun i hi hne => ?_⟩
  · unfold main
    dsimp only
    rw [if_neg fun h => h rfl, show (Mkfs.ialloc ⟨blankImage, 1, mkfsSuper.nmeta⟩ .dir).1 = ROOTINO
      from rfl, h₁]
    simp only [Res.ok_bind]
    rw [h₂]
    simp only [Res.ok_bind]
    rw [hm]
    simp only [Res.ok_bind]
    exact hballoc
  · show (m'.rinode i).type = _ ∧ (m'.rinode i).addrs = _
    rw [hinode i hi]
    by_cases e : i = ROOTINO
    · subst e
      rw [if_pos rfl, hv, hdroot]
      exact ⟨rfl, rfl⟩
    · rw [if_neg e]
      exact ⟨rfl, rfl⟩
  · show m'.img b = _
    rw [hdata b hlow, hb.shows.data b hlow]
  · show m'.img.bit mkfsSuper b = _
    rw [bit_balloc hballoc hlt, hb.shows.bitmap]
  · show m'.rinode ROOTINO = _
    rw [hinode _ (by decide), if_pos rfl, hv, hdroot]
  · show m'.rinode i = _
    rw [hinode i hi, if_neg hne]

end Mkfs

end Xv6
