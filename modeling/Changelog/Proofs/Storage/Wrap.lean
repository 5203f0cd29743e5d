import Changelog.Storage.Home
import Mathlib

/-!
# What is wrapped is read back

Octets that are wrapped stand in the file as they are, behind the mark of the format and the number
of the octets.  The reader of compressed octets finds them there, at least if they fit into one
block; so an object is read back from its file if its preamble is.
-/

namespace Changelog.Storage

/-! ## Reading bits -/

namespace BitReader

variable {source : ByteArray} {octet : UInt8} {i k : ℕ}

theorem bind_of_run
    {α β : Type} {reader : BitReader α} {next : α → BitReader β} {position position' : ℕ} {a : α}
    (h : reader source position = some (a, position')) :
    (reader >>= next) source position = next a source position' := by
  change (reader source position).bind _ = _
  rw [h]
  rfl

theorem run_get (source : ByteArray) (position : ℕ) :
    (get : BitReader ℕ) source position = some (position, position) := rfl

theorem run_read (source : ByteArray) (position : ℕ) :
    (read : BitReader ByteArray) source position = some (source, position) := rfl

theorem bit_of_octet (hoctet : source[i]? = some octet) (hk : k < 8) :
    bit source (8 * i + k) = some (octet.toNat >>> k % 2, 8 * i + k + 1) := by
  have hdiv : (8 * i + k) / 8 = i := by omega
  have hmod : (8 * i + k) % 8 = k := by omega
  rw [bit, bind_of_run (run_get source _), bind_of_run (run_read source _), hdiv, hoctet, hmod]
  rfl

theorem number_succ_of_octet (hoctet : source[i]? = some octet) (hk : k < 8) (width : ℕ) :
    number (width + 1) source (8 * i + k) =
      (number width source (8 * i + (k + 1))).map fun next =>
        (octet.toNat >>> k % 2 + 2 * next.1, next.2) := by
  change (bit source (8 * i + k)).bind _ = _
  rw [bit_of_octet hoctet hk, Option.bind_some]
  change (number width source (8 * i + k + 1)).bind _ = _
  rw [Nat.add_assoc]
  cases number width source (8 * i + (k + 1)) <;> rfl

theorem sum_bits (octet : UInt8) (n : ℕ) :
    octet.toNat >>> 0 % 2 + 2 * (octet.toNat >>> 1 % 2 + 2 * (octet.toNat >>> 2 % 2 +
      2 * (octet.toNat >>> 3 % 2 + 2 * (octet.toNat >>> 4 % 2 + 2 * (octet.toNat >>> 5 % 2 +
        2 * (octet.toNat >>> 6 % 2 + 2 * (octet.toNat >>> 7 % 2 + 2 * n))))))) =
      octet.toNat + 256 * n := by
  have hlt := octet.toNat_lt
  simp only [Nat.shiftRight_eq_div_pow]
  omega

/-- The low bits of a number are those of a whole octet. -/
theorem number_of_octet (hoctet : source[i]? = some octet) (width : ℕ) :
    number (width + 8) source (8 * i) =
      (number width source (8 * (i + 1))).map fun next => (octet.toNat + 256 * next.1, next.2) := by
  have hstep := fun k hk => number_succ_of_octet (k := k) hoctet hk
  rw [← Nat.add_zero (8 * i), hstep 0 (by omega), hstep 1 (by omega), hstep 2 (by omega),
    hstep 3 (by omega), hstep 4 (by omega), hstep 5 (by omega), hstep 6 (by omega),
    hstep 7 (by omega)]
  simp only [Option.map_map, Function.comp_def, sum_bits]
  rfl

theorem number_of_littleEndian
    {n : ℕ} (hlow : source[i]? = some n.toUInt8) (hhigh : source[i + 1]? = some (n / 256).toUInt8)
    (hn : n ≤ blockLimit) : number 16 source (8 * i) = some (n, 8 * (i + 2)) := by
  have hvalue : n.toUInt8.toNat + 256 * ((n / 256).toUInt8.toNat + 256 * 0) = n := by
    unfold blockLimit at hn
    rw [UInt8.toNat_ofNat', UInt8.toNat_ofNat']
    omega
  rw [number_of_octet hlow 8, number_of_octet hhigh 0]
  change some (n.toUInt8.toNat + 256 * ((n / 256).toUInt8.toNat + 256 * 0), _) = _
  rw [hvalue]

end BitReader

/-! ## Reading a block -/

theorem copyOctets_of_le
    {source octets : ByteArray} {start count : ℕ} (h : start + count ≤ source.size) :
    Deflate.copyOctets count octets source (8 * start) =
      some (octets ++ source.extract start (start + count), 8 * (start + count)) := by
  have hstart : 8 * start / 8 = start := by omega
  rw [Deflate.copyOctets, BitReader.bind_of_run (BitReader.run_read source _),
    BitReader.bind_of_run (BitReader.run_get source _), hstart, if_neg (by omega)]
  rfl

/-- What stands in front of octets that fit into one block. -/
def wrapFront (count : ℕ) : List UInt8 :=
  [0x78, 0x01, 1] ++ littleEndian 2 count ++ littleEndian 2 (blockLimit - count)

theorem exists_wrap_eq {octets : List UInt8} (h : octets.length ≤ blockLimit) :
    ∃ back, wrap octets = (wrapFront octets.length ++ octets ++ back).toByteArray := by
  have hblocks : blocks octets = block true octets := by
    rw [blocks, if_neg (by omega)]
  rw [wrap, hblocks, block, wrapFront]
  exact ⟨_, by
    simp only [if_true, List.append_assoc, List.cons_append, List.nil_append]
    rfl⟩

/-- A last block of octets as they are is read whole, however many of them are wanted. -/
theorem blocks_of_wrapFront
    {source : ByteArray} {count : ℕ} (hcount : count ≤ blockLimit)
    (hfront : ∀ i < 7, source[i]? = (wrapFront count)[i]?) (hsize : 7 + count ≤ source.size)
    (wanted fuel : ℕ) :
    Deflate.blocks wanted (fuel + 1) .empty source 16 =
      some (source.extract 7 (7 + count), 8 * (7 + count)) := by
  have hmark : source[2]? = some 1 := hfront 2 (by omega)
  have hlast : BitReader.bit source (8 * 2 + 0) = some (1, 17) :=
    BitReader.bit_of_octet hmark (by omega)
  have hkind : BitReader.number 2 source (8 * 2 + 1) = some (0, 19) := by
    rw [BitReader.number_succ_of_octet hmark (by omega),
      BitReader.number_succ_of_octet hmark (by omega)]
    rfl
  have halign : BitReader.align source 19 = some ((), 8 * 3) := rfl
  have hnumber : BitReader.number 16 source (8 * 3) = some (count, 8 * 5) :=
    BitReader.number_of_littleEndian (hfront 3 (by omega)) (hfront 4 (by omega)) hcount
  have hother : BitReader.number 16 source (8 * 5) = some (blockLimit - count, 8 * 7) :=
    BitReader.number_of_littleEndian (hfront 5 (by omega)) (hfront 6 (by omega)) (by omega)
  have hdiscard : (discard (BitReader.number 16) : BitReader PUnit) source (8 * 5) =
      some ((), 8 * 7) := by
    change (BitReader.number 16 source (8 * 5)).bind _ = _
    rw [hother]
    rfl
  have hcopy : Deflate.copyOctets count .empty source (8 * 7) =
      some (source.extract 7 (7 + count), 8 * (7 + count)) := by
    rw [copyOctets_of_le hsize, ByteArray.empty_append]
  rw [Deflate.blocks, BitReader.bind_of_run hlast, BitReader.bind_of_run hkind]
  change (do
    BitReader.align
    let count ← BitReader.number 16
    discard (BitReader.number 16)
    let octets ← Deflate.copyOctets count .empty
    if 1 = 1 ∨ wanted ≤ octets.size then return octets
    else Deflate.blocks wanted fuel octets : BitReader ByteArray) source 19 = _
  rw [BitReader.bind_of_run halign, BitReader.bind_of_run hnumber, BitReader.bind_of_run hdiscard,
    BitReader.bind_of_run hcopy, if_pos (Or.inl rfl)]
  rfl

theorem getElem?_toByteArray (octets : List UInt8) (i : ℕ) :
    octets.toByteArray[i]? = octets[i]? := by
  by_cases h : i < octets.length
  · rw [getElem?_pos octets.toByteArray i (by simpa using h), List.getElem_toByteArray,
      List.getElem?_eq_getElem h]
  · rw [getElem?_neg octets.toByteArray i (by simpa using h), List.getElem?_eq_none (by omega)]

theorem extract_toByteArray (front octets back : List UInt8) :
    (front ++ octets ++ back).toByteArray.extract front.length (front.length + octets.length) =
      octets.toByteArray := by
  apply ByteArray.ext
  rw [ByteArray.data_extract, List.data_toByteArray, List.data_toByteArray, List.extract_toArray]
  simp [List.extract]

/-- Octets that fit into one block are read back. -/
theorem decompress?_wrap {octets : List UInt8} (h : octets.length ≤ blockLimit) (wanted : ℕ) :
    decompress? (wrap octets) 0 wanted = some octets.toByteArray := by
  obtain ⟨back, hwrap⟩ := exists_wrap_eq h
  have hfront : ∀ i < 7, (wrap octets)[i]? = (wrapFront octets.length)[i]? := by
    intro i hi
    rw [hwrap, getElem?_toByteArray, List.append_assoc, List.getElem?_append_left]
    exact hi
  have hsize : 7 + octets.length ≤ (wrap octets).size := by
    rw [hwrap, List.size_toByteArray, List.length_append, List.length_append]
    exact Nat.le_add_right _ _
  have hfuel : 8 * (wrap octets).size = (8 * (wrap octets).size - 1) + 1 := by omega
  have hextract := extract_toByteArray (wrapFront octets.length) octets back
  rw [← hwrap] at hextract
  unfold decompress?
  rw [hfront 0 (by omega), hfront 1 (by omega), hfuel]
  change (Deflate.blocks wanted _ .empty (wrap octets) 16).map Prod.fst = _
  rw [blocks_of_wrapFront h hfront hsize]
  exact congrArg some hextract

/-! ## Objects -/

/-- An object is read back from its file, if file and preamble are as they should be. -/
theorem objectOfFile?_objectFile
    {kind : ObjectKind} {octets : List UInt8}
    (hfits : (kind.preamble octets.length ++ octets).length ≤ blockLimit)
    (hpreamble : preamble? (kind.preamble octets.length ++ octets).toByteArray =
      some (kind, octets.length, (kind.preamble octets.length).length)) :
    objectOfFile? (objectFile kind octets) = some (.ofOctets kind octets) := by
  have hcontent : ((kind.preamble octets.length ++ octets).toByteArray.extract
      (kind.preamble octets.length).length
      ((kind.preamble octets.length).length + octets.length)).toList = octets := by
    have hextract := extract_toByteArray (kind.preamble octets.length) octets []
    rw [List.append_nil] at hextract
    have hlist : octets.toByteArray = ⟨⟨octets⟩⟩ := ByteArray.ext List.data_toByteArray
    rw [hextract, hlist, FileTree.toList_content]
  rw [objectOfFile?, objectFile, decompress?_wrap hfits]
  simp only [Option.bind_eq_bind, Option.bind_some, hpreamble, decompress?_wrap hfits, hcontent]
  cases kind <;> rfl

/-- A directory with a single file holds the object of this file. -/
theorem looseObjects_singleton
    {front back : String} {file : ByteArray} {id : ObjectId} {object : Object}
    (hid : ObjectId.ofChars? (front ++ back).toList = some id)
    (hobject : objectOfFile? file = some object) :
    looseObjects (some (.directory [(front, .directory [(back, .file file)])])) =
      [(id, object)] := by
  have hcontent : (FileTree.file file).contentAt? [] = some file := rfl
  simp only [looseObjects, entriesOf, List.flatMap_cons, List.flatMap_nil, List.filterMap_cons,
    List.filterMap_nil, hid, hcontent, hobject, Option.bind_eq_bind, Option.bind_some,
    Option.pure_def, List.append_nil]

end Changelog.Storage
