import MatrixFaces.Foundation.AddressSpace
import MatrixFaces.Foundation.LittleEndian

set_option autoImplicit false

/-!
# Writing an erase block (`src/board/samd51/flash_block.cpp`, `blob_store.cpp`)

The flash controller as far as the writer uses it, the writer, and the two blobs it keeps.  A
command is over when `command` returns, so that its two waits are left out.

`Nvmctrl` has the cells, the page buffer and the page it belongs to.  A write clears bits
only: what is read back is right only if the block was erased before and no page was written
twice.

The main result is `erasedWrite_reads_back`, for every size of page that divides the block,
every aligned address and every source.  `Between` is the invariant of the loop over the
pages: the pages so far hold the source, the ones to come are erased, and the rest of the
flash is as it was.
-/

namespace MatrixFaces.Board

open MatrixFaces.Foundation

namespace FlashBlock

def kBlockSize : Nat := 8192

/-- The byte of an erased cell. -/
def erased : Byte := 0xFF

/-! ## The controller -/

/-- `NVMCTRL`, with the flash, whose cells are read at their addresses. -/
structure Nvmctrl where
  flash : AddressSpace
  pageBuffer : Bytes
  /-- `ADDR`. -/
  addr : UInt32
  /-- `CTRLA.WMODE`; 0 is manual. -/
  wmode : UInt8
  /-- `PARAM.PSZ`. -/
  psz : Nat

/-- `pageSize`. -/
def pageSize (psz : Nat) : Nat := 8 <<< psz

/-- The commands in `CTRLB`. -/
inductive Command where
  /-- Erase the block at `ADDR`. -/
  | EB
  /-- Clear the page buffer. -/
  | PBC
  /-- Write the page buffer to the page at `ADDR`. -/
  | WP

namespace Nvmctrl

/-- Where the run of `size` cells that holds `ADDR` begins. -/
def startOf (nvm : Nvmctrl) (size : Nat) : Nat := nvm.addr.toNat - nvm.addr.toNat % size

def command (nvm : Nvmctrl) : Command → Nvmctrl
  | .EB =>
      { nvm with
        flash := nvm.flash.overwrite (nvm.startOf kBlockSize) (List.replicate kBlockSize erased) }
  | .PBC => { nvm with pageBuffer := List.replicate (pageSize nvm.psz) erased }
  | .WP =>
      { nvm with
        flash := nvm.flash.overwrite (nvm.startOf (pageSize nvm.psz)) nvm.pageBuffer }

/-- A word written to the flash goes to the page buffer.  It has to be aligned, and in any
mode but the manual one it could commit the page. -/
def writeWord (nvm : Nvmctrl) (address word : UInt32) : Option Nvmctrl :=
  if nvm.wmode = 0 ∧ address.toNat % 4 = 0 then
    some { nvm with
      pageBuffer := memcpy nvm.pageBuffer (address.toNat % pageSize nvm.psz) (writeU32 word) }
  else none

end Nvmctrl

/-! ## The writer -/

/-- `read`. -/
def read (nvm : Nvmctrl) (address : UInt32) (length : Nat) : Bytes :=
  nvm.flash.read address.toNat length

/-- The loop over the words of a page; no word is read from behind the source. -/
def fillPage (source : Bytes) (offset chunk i : Nat) (dest : UInt32) (nvm : Nvmctrl) :
    Option Nvmctrl :=
  if i < chunk then
    if offset + i + 4 ≤ source.length then do
      let nvm ← nvm.writeWord dest (readU32 (source.drop (offset + i)))
      fillPage source offset chunk (i + 4) (dest + 4) nvm
    else none
  else some nvm
termination_by chunk - i

theorem pageSize_pos (psz : Nat) : 0 < pageSize psz := by
  rw [pageSize, Nat.shiftLeft_eq]
  exact Nat.mul_pos (by decide) (Nat.pow_pos (by decide))

/-- The loop over the pages. -/
def writePages (psz : Nat) (address : UInt32) (source : Bytes) (offset : Nat) (nvm : Nvmctrl) :
    Option Nvmctrl :=
  if offset < source.length then do
    let chunk :=
      if source.length - offset < pageSize psz then source.length - offset else pageSize psz
    let pageAddress := address + UInt32.ofNat offset
    let nvm ← fillPage source offset chunk 0 pageAddress (nvm.command .PBC)
    writePages psz address source (offset + pageSize psz)
      ({ nvm with addr := pageAddress }.command .WP)
  else some nvm
termination_by source.length - offset
decreasing_by
  have hpos := pageSize_pos psz
  omega

/-- `erasedWrite`. -/
def erasedWrite (nvm : Nvmctrl) (address : UInt32) (source : Bytes) : Option (Bool × Nvmctrl) :=
  if source.length % 4 ≠ 0 ∨ source.length > kBlockSize then some (false, nvm)
  else do
    let nvm := { nvm with wmode := 0, addr := address }.command .EB
    let nvm ← writePages nvm.psz address source 0 nvm
    return (read nvm address source.length == source, nvm)

/-- An address that does not wrap. -/
theorem toNat_add_ofNat {address : UInt32} {n : Nat} (h : address.toNat + n < 2 ^ 32) :
    (address + UInt32.ofNat n).toNat = address.toNat + n := by
  have hn : n < UInt32.size := Nat.lt_of_le_of_lt (Nat.le_add_left _ _) h
  rw [UInt32.toNat_add, UInt32.toNat_ofNat_of_lt' hn, Nat.mod_eq_of_lt h]

/-! ## One page -/

variable {psz : Nat} {source : Bytes} {address : UInt32} {offset : Nat} {nvm : Nvmctrl}

theorem four_dvd_pageSize (psz : Nat) : 4 ∣ pageSize psz := by
  rw [pageSize, Nat.shiftLeft_eq]
  exact Nat.dvd_mul_right_of_dvd (by decide) _

/-- The page buffer with the first `i` bytes of a page in it. -/
def pageAfter (source : Bytes) (offset page i : Nat) : Bytes :=
  (source.drop offset).take i ++ List.replicate (page - i) erased

theorem memcpy_append_replicate (front bytes : Bytes) (n : Nat) :
    memcpy (front ++ List.replicate n erased) front.length bytes =
      front ++ bytes ++ List.replicate (n - bytes.length) erased := by
  rw [memcpy, List.take_left, List.drop_length_add_append, List.drop_replicate]

theorem pageAfter_word {page i : Nat} (hsource : offset + i + 4 ≤ source.length) :
    memcpy (pageAfter source offset page i) i
        (writeU32 (readU32 (source.drop (offset + i)))) =
      pageAfter source offset page (i + 4) := by
  have hlength : ((source.drop offset).take i).length = i := length_take_drop (by omega)
  have hword : writeU32 (readU32 (source.drop (offset + i))) =
      (source.drop (offset + i)).take 4 := by
    have henough : 4 ≤ (source.drop (offset + i)).length := by
      rw [List.length_drop]
      omega
    match source.drop (offset + i), henough with
    | b₀ :: b₁ :: b₂ :: b₃ :: rest, _ => exact writeU32_readU32 b₀ b₁ b₂ b₃ rest
  have hwordLength : ((source.drop (offset + i)).take 4).length = 4 := length_take_drop hsource
  have hcopy := memcpy_append_replicate ((source.drop offset).take i)
    ((source.drop (offset + i)).take 4) (page - i)
  rw [hlength, hwordLength] at hcopy
  rw [hword, pageAfter, hcopy, pageAfter, List.take_add, List.drop_drop, Nat.sub_sub]

/-- The inner loop puts its part of the source into the cleared page buffer. -/
theorem fillPage_eq {pageAddress : UInt32} {i words : Nat} (hmanual : nvm.wmode = 0)
    (haligned : pageSize nvm.psz ∣ pageAddress.toNat)
    (hroom : pageAddress.toNat + pageSize nvm.psz ≤ 2 ^ 32) (hi : 4 ∣ i)
    (hpage : i + 4 * words ≤ pageSize nvm.psz)
    (hsource : offset + (i + 4 * words) ≤ source.length) :
    fillPage source offset (i + 4 * words) i (pageAddress + UInt32.ofNat i)
        { nvm with pageBuffer := pageAfter source offset (pageSize nvm.psz) i } =
      some { nvm with
        pageBuffer := pageAfter source offset (pageSize nvm.psz) (i + 4 * words) } := by
  induction words generalizing i with
  | zero => rw [fillPage, Nat.mul_zero, Nat.add_zero, if_neg (Nat.lt_irrefl i)]
  | succ words ih =>
      have hfour := four_dvd_pageSize nvm.psz
      have hdest := @toNat_add_ofNat pageAddress i (by omega)
      have hword : (pageAddress + UInt32.ofNat i).toNat % 4 = 0 := by
        rw [hdest]
        exact Nat.mod_eq_zero_of_dvd (Nat.dvd_add (Nat.dvd_trans hfour haligned) hi)
      have hplace : (pageAddress + UInt32.ofNat i).toNat % pageSize nvm.psz = i := by
        rw [hdest, Nat.add_mod, Nat.mod_eq_zero_of_dvd haligned, Nat.zero_add, Nat.mod_mod]
        exact Nat.mod_eq_of_lt (by omega)
      have hnext : pageAddress + UInt32.ofNat i + 4 = pageAddress + UInt32.ofNat (i + 4) := by
        rw [UInt32.ofNat_add, UInt32.add_assoc]
        rfl
      have hchunk : i + 4 * (words + 1) = i + 4 + 4 * words := by omega
      rw [fillPage, if_pos (by omega), if_pos (by omega), Nvmctrl.writeWord,
        if_pos ⟨hmanual, hword⟩, hplace, pageAfter_word (by omega), hnext, hchunk]
      exact ih (Nat.dvd_add hi (Nat.dvd_refl 4)) (by omega) (by omega)

/-! ## The block -/

/-- The block with the first `n` bytes of the source in it. -/
def blockAfter (source : Bytes) (n : Nat) : Bytes :=
  source.take n ++ List.replicate (kBlockSize - (source.take n).length) erased

theorem length_blockAfter (h : source.length ≤ kBlockSize) (n : Nat) :
    (blockAfter source n).length = kBlockSize := by
  have htake := List.length_take_le n source
  rw [blockAfter, List.length_append, List.length_replicate]
  rw [List.length_take] at *
  omega

theorem blockAfter_of_le {n : Nat} (h : source.length ≤ n) :
    blockAfter source n = source ++ List.replicate (kBlockSize - source.length) erased := by
  rw [blockAfter, List.take_of_length_le h]

/-- Writing a page into the erased rest of the block. -/
theorem blockAfter_page {page chunk : Nat} (hoffset : offset < source.length)
    (hchunk : chunk = min page (source.length - offset)) (hblock : offset + page ≤ kBlockSize) :
    memcpy (blockAfter source offset) offset (pageAfter source offset page chunk) =
      blockAfter source (offset + page) := by
  have hfront : (source.take offset).length = offset := by
    rw [List.length_take, Nat.min_eq_left hoffset.le]
  have hpart : ((source.drop offset).take chunk).length = chunk := length_take_drop (by omega)
  have hpage : (pageAfter source offset page chunk).length = page := by
    rw [pageAfter, List.length_append, hpart, List.length_replicate]
    omega
  have hsame : (source.drop offset).take page = (source.drop offset).take chunk := by
    rw [hchunk, ← List.length_drop, ← List.take_take, List.take_length]
  have htotal : (source.take (offset + page)).length = offset + chunk := by
    rw [List.length_take]
    omega
  have hcopy := memcpy_append_replicate (source.take offset)
    (pageAfter source offset page chunk) (kBlockSize - offset)
  rw [hfront, hpage] at hcopy
  rw [blockAfter, hfront, hcopy, blockAfter, htotal, List.take_add, hsame, pageAfter]
  simp only [List.append_assoc, List.replicate_append_replicate]
  congr 3
  omega

/-- Pages end with the block. -/
theorem add_page_le {page : Nat} (hpage : page ∣ kBlockSize) (hoffset : page ∣ offset)
    (hlt : offset < kBlockSize) : offset + page ≤ kBlockSize := by
  obtain ⟨pages, hpages⟩ := hpage
  obtain ⟨done, rfl⟩ := hoffset
  rw [hpages] at hlt ⊢
  have hless : done < pages := Nat.lt_of_mul_lt_mul_left hlt
  rw [← Nat.mul_succ]
  exact Nat.mul_le_mul_left page hless

theorem startOf_of_dvd {size : Nat} (h : size ∣ nvm.addr.toNat) :
    nvm.startOf size = nvm.addr.toNat := by
  rw [Nvmctrl.startOf, Nat.mod_eq_zero_of_dvd h, Nat.sub_zero]

/-- Between two pages the block holds the front of the source, and `flash` is what was there
before the block was erased. -/
structure Between (flash : AddressSpace) (address : UInt32) (source : Bytes) (offset : Nat)
    (nvm : Nvmctrl) : Prop where
  manual : nvm.wmode = 0
  flash : nvm.flash = flash.overwrite address.toNat (blockAfter source offset)

variable {flash : AddressSpace}

/-- One pass of the loop over the pages. -/
theorem writePages_page (hpage : pageSize nvm.psz ∣ kBlockSize)
    (haligned : kBlockSize ∣ address.toNat) (hfour : 4 ∣ source.length)
    (hsize : source.length ≤ kBlockSize) (hoffset : pageSize nvm.psz ∣ offset)
    (hmore : offset < source.length) (h : Between flash address source offset nvm) :
    ∃ next : Nvmctrl, next.psz = nvm.psz ∧
      Between flash address source (offset + pageSize nvm.psz) next ∧
      writePages nvm.psz address source offset nvm =
        writePages nvm.psz address source (offset + pageSize nvm.psz) next := by
  have hblock := add_page_le hpage hoffset (hmore.trans_le hsize)
  have haddress : address.toNat + kBlockSize ≤ 2 ^ 32 := by
    have hlt := address.toNat_lt
    rw [kBlockSize] at haligned ⊢
    omega
  have hpageAddress := @toNat_add_ofNat address offset (by omega)
  have hpageAligned : pageSize nvm.psz ∣ (address + UInt32.ofNat offset).toNat := by
    rw [hpageAddress]
    exact Nat.dvd_add (Nat.dvd_trans hpage haligned) hoffset
  have hfourOffset := Nat.dvd_trans (four_dvd_pageSize nvm.psz) hoffset
  obtain ⟨chunk, hchunk⟩ : ∃ chunk, (if source.length - offset < pageSize nvm.psz then
      source.length - offset else pageSize nvm.psz) = chunk := ⟨_, rfl⟩
  have hmin : chunk = min (pageSize nvm.psz) (source.length - offset) := by
    rw [← hchunk]
    split <;> omega
  obtain ⟨words, hwords⟩ : 4 ∣ chunk := by
    rw [← hchunk]
    split
    · exact Nat.dvd_sub hfour hfourOffset
    · exact four_dvd_pageSize nvm.psz
  have hfill := @fillPage_eq source offset nvm (address + UInt32.ofNat offset) 0 words h.manual
    hpageAligned (by omega) (Nat.dvd_zero 4) (by omega) (by omega)
  rw [Nat.zero_add, ← hwords] at hfill
  have hcleared : { nvm with pageBuffer := pageAfter source offset (pageSize nvm.psz) 0 } =
      nvm.command .PBC := rfl
  have hstart : address + UInt32.ofNat offset + UInt32.ofNat 0 =
      address + UInt32.ofNat offset := UInt32.add_zero _
  rw [hcleared, hstart] at hfill
  have hpart : ((source.drop offset).take chunk).length = chunk := length_take_drop (by omega)
  have hlength : (pageAfter source offset (pageSize nvm.psz) chunk).length = pageSize nvm.psz := by
    rw [pageAfter, List.length_append, hpart, List.length_replicate]
    omega
  have hstartOf : ({ nvm with
      pageBuffer := pageAfter source offset (pageSize nvm.psz) chunk
      addr := address + UInt32.ofNat offset } : Nvmctrl).startOf (pageSize nvm.psz) =
        address.toNat + offset := by
    rw [startOf_of_dvd hpageAligned]
    exact hpageAddress
  have hwritten : nvm.flash.overwrite (address.toNat + offset)
      (pageAfter source offset (pageSize nvm.psz) chunk) =
        flash.overwrite address.toNat (blockAfter source (offset + pageSize nvm.psz)) := by
    rw [h.flash, AddressSpace.overwrite_overwrite, blockAfter_page hmore hmin hblock]
    rw [length_blockAfter hsize, hlength]
    exact hblock
  refine ⟨{ nvm with
    pageBuffer := pageAfter source offset (pageSize nvm.psz) chunk
    addr := address + UInt32.ofNat offset
    flash := flash.overwrite address.toNat (blockAfter source (offset + pageSize nvm.psz)) },
    rfl, ⟨h.manual, rfl⟩, ?_⟩
  rw [writePages, if_pos hmore, hchunk]
  simp only [hfill, Option.bind_eq_bind, Option.bind_some]
  simp only [Nvmctrl.command, hstartOf, hwritten]

/-- The loop over the pages leaves the source in the block. -/
theorem writePages_eq (hpage : pageSize nvm.psz ∣ kBlockSize)
    (haligned : kBlockSize ∣ address.toNat) (hfour : 4 ∣ source.length)
    (hsize : source.length ≤ kBlockSize) (hoffset : pageSize nvm.psz ∣ offset)
    (h : Between flash address source offset nvm) :
    ∃ final : Nvmctrl, writePages nvm.psz address source offset nvm = some final ∧
      Between flash address source source.length final := by
  induction hleft : source.length - offset using Nat.strongRecOn generalizing offset nvm with
  | ind left ih =>
      by_cases hmore : offset < source.length
      · obtain ⟨next, hpsz, hnext, hpass⟩ :=
          writePages_page hpage haligned hfour hsize hoffset hmore h
        have hpos := pageSize_pos nvm.psz
        have hless : source.length - (offset + pageSize nvm.psz) < left := by omega
        obtain ⟨final, hfinal, hdone⟩ := ih _ hless (by rwa [hpsz])
          (by rw [hpsz]; exact Nat.dvd_add hoffset (Nat.dvd_refl _)) hnext rfl
        rw [hpsz] at hfinal
        exact ⟨final, hpass.trans hfinal, hdone⟩
      · refine ⟨nvm, ?_, h.manual, ?_⟩
        · rw [writePages, if_neg hmore]
        · rw [h.flash, blockAfter_of_le (Nat.le_of_not_lt hmore), blockAfter_of_le (Nat.le_refl _)]

/-- Whole words up to the size of a block are taken, and the block is the source and erased
cells behind it. -/
theorem erasedWrite_eq (hpage : pageSize nvm.psz ∣ kBlockSize)
    (haligned : kBlockSize ∣ address.toNat) (hfour : 4 ∣ source.length)
    (hsize : source.length ≤ kBlockSize) :
    ∃ final, erasedWrite nvm address source = some (true, final) ∧
      final.flash = nvm.flash.overwrite address.toNat
        (source ++ List.replicate (kBlockSize - source.length) erased) := by
  have hstart : ({ nvm with wmode := 0, addr := address } : Nvmctrl).startOf kBlockSize =
      address.toNat := startOf_of_dvd haligned
  have herased : Between nvm.flash address source 0
      ({ nvm with wmode := 0, addr := address }.command .EB) := by
    constructor
    · rfl
    · rw [Nvmctrl.command, hstart]
      rfl
  obtain ⟨final, hfinal, hdone⟩ := @writePages_eq source address 0
    ({ nvm with wmode := 0, addr := address }.command .EB) nvm.flash hpage haligned hfour hsize
    (Nat.dvd_zero _) herased
  have hflash := hdone.flash
  rw [blockAfter_of_le (Nat.le_refl _)] at hflash
  have hverify : (read final address source.length == source) = true := by
    rw [read, hflash, AddressSpace.read_overwrite (by simp), List.take_left, beq_self_eq_true]
  refine ⟨final, ?_, hflash⟩
  rw [erasedWrite, if_neg (by omega)]
  change (writePages (Nvmctrl.command { nvm with wmode := 0, addr := address } .EB).psz
    address source 0 _ >>= _) = _
  rw [hfinal, Option.bind_eq_bind, Option.bind_some, hverify]
  rfl

/-- What `erasedWrite` saves reads back exactly: the block is the source and erased cells behind
it, and no cell outside of the block has changed.  A length it does not take leaves everything
as it was. -/
theorem erasedWrite_reads_back (nvm : Nvmctrl) (hpage : pageSize nvm.psz ∣ kBlockSize)
    {address : UInt32} (haligned : kBlockSize ∣ address.toNat) (source : Bytes) :
    (source.length % 4 = 0 ∧ source.length ≤ kBlockSize →
      ∃ final, erasedWrite nvm address source = some (true, final) ∧
        read final address kBlockSize =
          source ++ List.replicate (kBlockSize - source.length) erased ∧
        ∀ a, a < address.toNat ∨ address.toNat + kBlockSize ≤ a → final.flash a = nvm.flash a) ∧
    (¬ (source.length % 4 = 0 ∧ source.length ≤ kBlockSize) →
      erasedWrite nvm address source = some (false, nvm)) := by
  constructor
  · rintro ⟨hfour, hsize⟩
    obtain ⟨final, hwrite, hflash⟩ :=
      erasedWrite_eq hpage haligned (Nat.dvd_of_mod_eq_zero hfour) hsize
    have hlength : (source ++ List.replicate (kBlockSize - source.length) erased).length =
        kBlockSize := by
      rw [List.length_append, List.length_replicate, Nat.add_sub_cancel' hsize]
    refine ⟨final, hwrite, ?_, fun a houtside => ?_⟩
    · rw [read, hflash, AddressSpace.read_overwrite hlength.ge, List.take_of_length_le hlength.le]
    · rw [hflash, AddressSpace.overwrite_outside]
      rwa [hlength]
  · intro hrefused
    rw [erasedWrite, if_pos (by omega)]

/-- Two pages and a half of 512 bytes, over a block of zeros. -/
theorem erasedWrite_reads_back_credentials :
    ∃ final, erasedWrite ⟨fun _ => 0, [], 0, 1, 6⟩ 0x7E000 (List.replicate 1280 0x2A) =
        some (true, final) ∧
      read final 0x7E000 kBlockSize =
        List.replicate 1280 0x2A ++
          List.replicate (kBlockSize - (List.replicate 1280 (0x2A : Byte)).length) erased ∧
      ∀ a, a < (0x7E000 : UInt32).toNat ∨ (0x7E000 : UInt32).toNat + kBlockSize ≤ a →
        final.flash a = 0 :=
  (erasedWrite_reads_back ⟨fun _ => 0, [], 0, 1, 6⟩ (by decide) (by decide) _).1
    (by rw [List.length_replicate]; decide)

/-! ## The blobs -/

namespace BlobStore

/-- `slotFor`: the address of a blob's block. -/
def slotFor (name : Bytes) : Option UInt32 :=
  if name = ascii "creds" then some 0x0007E000
  else if name = ascii "settings" then some 0x0007C000
  else none

/-- `save`. -/
def save (nvm : Nvmctrl) (name buf : Bytes) : Option (Bool × Nvmctrl) :=
  match slotFor name with
  | none => some (false, nvm)
  | some address =>
      if buf.length > kBlockSize then some (false, nvm) else erasedWrite nvm address buf

/-- `load`; `none` is the source's `false`. -/
def load (nvm : Nvmctrl) (name : Bytes) (cap : Nat) : Option Bytes :=
  match slotFor name with
  | none => none
  | some address => if cap > kBlockSize then none else some (read nvm address cap)

theorem slotFor_aligned {name : Bytes} {address : UInt32} (h : slotFor name = some address) :
    kBlockSize ∣ address.toNat := by
  rw [slotFor] at h
  split at h
  · cases h
    decide
  · split at h
    · cases h
      decide
    · cases h

/-- The blocks of two blobs have no cell in common. -/
theorem slotFor_disjoint {name other : Bytes} {address otherAddress : UInt32}
    (h : slotFor name = some address) (hother : slotFor other = some otherAddress)
    (hne : name ≠ other) :
    address.toNat + kBlockSize ≤ otherAddress.toNat ∨
      otherAddress.toNat + kBlockSize ≤ address.toNat := by
  rw [slotFor] at h hother
  split at h
  · split at hother
    · rename_i hname hotherName
      exact absurd (hname.trans hotherName.symm) hne
    · split at hother
      · cases h
        cases hother
        decide
      · cases hother
  · split at h
    · split at hother
      · cases h
        cases hother
        decide
      · split at hother
        · rename_i hname _ hotherName
          exact absurd (hname.trans hotherName.symm) hne
        · cases hother
    · cases h

/-- A blob that was saved is loaded again, and the other one is as it was. -/
theorem load_save (nvm : Nvmctrl) (hpage : pageSize nvm.psz ∣ kBlockSize) {name : Bytes}
    {address : UInt32} (hslot : slotFor name = some address) {buf : Bytes}
    (hfour : buf.length % 4 = 0) (hsize : buf.length ≤ kBlockSize) :
    ∃ final, save nvm name buf = some (true, final) ∧ load final name buf.length = some buf ∧
      ∀ other ≠ name, ∀ cap, load final other cap = load nvm other cap := by
  obtain ⟨final, hwrite, hflash⟩ := erasedWrite_eq hpage (slotFor_aligned hslot)
    (Nat.dvd_of_mod_eq_zero hfour) hsize
  refine ⟨final, ?_, ?_, fun other hne cap => ?_⟩
  · rw [save, hslot]
    exact (if_neg (Nat.not_lt.mpr hsize)).trans hwrite
  · have hfront : read final address buf.length = buf := by
      rw [read, hflash, AddressSpace.read_overwrite (by simp), List.take_left]
    rw [load, hslot]
    exact (if_neg (Nat.not_lt.mpr hsize)).trans (congrArg some hfront)
  · rw [load, load]
    cases hother : slotFor other with
    | none => rfl
    | some otherAddress =>
        have hdisjoint := slotFor_disjoint hslot hother hne.symm
        dsimp only
        split
        · rfl
        · rw [read, read, hflash, AddressSpace.read_congr]
          intro a hle hlt
          refine AddressSpace.overwrite_outside ?_
          rw [List.length_append, List.length_replicate, Nat.add_sub_cancel' hsize]
          omega

end BlobStore

end FlashBlock

end MatrixFaces.Board
