import Changelog.Proofs.Repository.SingleLine
import Changelog.Proofs.Repository.Written

/-!
# Entries of a log are well formed

Whatever octets a commit has been stored with, its entry has a hash of forty digits, a header on one
line, and trimmed texts.  The header is trimmed at its end only and the start of the body only by the
blanks of ASCII, since both are trimmed while they are octets.  The end of the body is trimmed of all
blanks, since it is trimmed once more as a text.

Decoding comes between the two.  It makes no blank of ASCII of anything else, so what octets neither
begin nor end with, their text does not either.  It can make other blanks: in Latin-1 a single octet may
be a no-break space.
-/

namespace Changelog

namespace Text

/-! ## Ends of decoded octets -/

theorem toNat_lt_of_isAsciiBlank {c : Char} (h : isAsciiBlank c = true) : c.toNat < 0x80 := by
  have hall : ∀ c ∈ [' ', '\t', '\n', '\x0b', '\x0c', '\r'], c.toNat < 0x80 := by simp
  exact hall c (List.contains_iff_mem.mp h)

/-- If no blank begins octets, then no blank of ASCII begins their text. -/
theorem Aligned.text_first_not_blank {text : List Char} {octets : List UInt8}
    (h : Aligned text octets) (hfirst : ∀ octet ∈ octets.head?, isBlankOctet octet = false) :
    ∀ c ∈ text.head?, isAsciiBlank c = false := by
  intro c hc
  by_contra hblank
  rw [Bool.not_eq_false] at hblank
  cases h with
  | nil => cases hc
  | ascii =>
      obtain rfl := Option.some.inj hc
      rw [isAsciiBlank_ofNat, hfirst _ rfl] at hblank
      cases hblank
  | other hhigh =>
      obtain rfl := Option.some.inj hc
      exact absurd (toNat_lt_of_isAsciiBlank hblank) (Nat.not_lt.mpr hhigh)

theorem Aligned.text_last_not_blank {text : List Char} {octets : List UInt8}
    (h : Aligned text octets) (hlast : ∀ octet ∈ octets.getLast?, isBlankOctet octet = false) :
    ∀ c ∈ text.getLast?, isAsciiBlank c = false := by
  rw [← List.head?_reverse] at hlast ⊢
  exact h.reverse.text_first_not_blank hlast

theorem mem_head?_of_prefix {α : Type} {xs ys : List α} (h : xs <+: ys) {x : α}
    (hx : x ∈ xs.head?) : x ∈ ys.head? := by
  obtain ⟨others, rfl⟩ := h
  exact List.mem_head?_append_of_mem_head? hx

theorem trimEnd_prefix (text : List Char) : trimEnd text <+: text :=
  List.rdropWhile_prefix isBlank text

theorem trimOctets_prefix (octets : List UInt8) : trimOctets octets <+: octets :=
  List.rdropWhile_prefix isBlankOctet octets

/-- Octets of ASCII are counted like characters. -/
theorem takeOctets?_of_ascii {text : List Char} (h : ∀ c ∈ text, c.utf8Size = 1) (limit : Nat) :
    takeOctets? limit text = some (text.take limit) := by
  induction text generalizing limit with
  | nil => cases limit <;> rfl
  | cons c text ih =>
      obtain ⟨hc, htext⟩ := List.forall_mem_cons.mp h
      cases limit with
      | zero => rfl
      | succ limit => simp [takeOctets?, hc, ih htext]

end Text

namespace Message

/-! ## Ends of the two parts -/

/-- A run of blanks at the end of a paragraph is dropped. -/
theorem last_not_blank_fold (run octets : List UInt8) :
    ∀ octet ∈ (fold run octets).getLast?, Text.isBlankOctet octet = false := by
  induction octets generalizing run with
  | nil => simp [fold]
  | cons octet octets ih =>
      rw [fold]
      by_cases hblank : Text.isBlankOctet octet = true
      · rw [if_pos hblank]
        exact ih _
      · rw [if_neg hblank, List.getLast?_append_cons]
        by_cases hnone : fold [] octets = []
        · rw [hnone]
          simpa using hblank
        · rw [List.getLast?_cons_of_ne_nil hnone]
          exact ih []

theorem first_not_blank_trim (octets : List UInt8) :
    ∀ octet ∈ (trim octets).head?, Text.isBlankOctet octet = false := by
  intro octet hoctet
  have hhead := Text.mem_head?_of_prefix (Text.trimOctets_prefix _) hoctet
  have hdropped := List.head?_dropWhile_not Text.isBlankOctet octets
  rw [hhead] at hdropped
  simpa using hdropped

end Message

/-! ## Entries -/

/-- The digits of which hashes are written. -/
def hashDigits : List Char := "0123456789abcdef".toList

namespace LogEntry

/-- An entry is well formed: its hash consists of forty digits, so that it can be abbreviated; its
header is on one line and ends in no blank of ASCII; and its body begins with none and ends in no blank
at all. -/
structure WellFormed (entry : LogEntry) : Prop where
  length_hash : entry.hash.toList.length = 40
  mem_hashDigits : ∀ c ∈ entry.hash.toList, c ∈ hashDigits
  shortHash : entry.shortHash? = some (.ofList (entry.hash.toList.take 7))
  header_line : '\n' ∉ entry.header.toList
  header_last : ∀ c ∈ entry.header.toList.getLast?, Text.isAsciiBlank c = false
  body_first : ∀ c ∈ entry.body.toList.head?, Text.isAsciiBlank c = false
  body_last : ∀ c ∈ entry.body.toList.getLast?, Text.isBlank c = false

end LogEntry

theorem ObjectId.mem_hashDigits (id : ObjectId) : ∀ c ∈ id.toString.toList, c ∈ hashDigits := by
  have hdigits : ∀ digit : Fin 16, Text.hexDigit digit ∈ hashDigits := by decide
  intro c hc
  rw [toString, String.toList_ofList, toChars, List.mem_map] at hc
  obtain ⟨digit, -, rfl⟩ := hc
  exact hdigits digit

theorem Commit.wellFormed_entry (c : Commit) (id : ObjectId) : (c.entry id).WellFormed := by
  have hheader := c.aligned_decode (Message.header c.message)
  have hbody := c.aligned_decode (Message.body c.message)
  have htrimmed := Text.trimEnd_prefix (c.decode (Message.body c.message))
  have hsize : (hashDigits.all fun digit => digit.utf8Size = 1) = true := by decide
  constructor
  case length_hash =>
    change id.toString.toList.length = 40
    rw [ObjectId.toString, String.toList_ofList, ObjectId.length_toChars]
  case mem_hashDigits => exact id.mem_hashDigits
  case shortHash =>
    have hascii : ∀ digit ∈ id.toString.toList, digit.utf8Size = 1 :=
      fun digit hdigit => of_decide_eq_true
        (List.all_eq_true.mp hsize digit (id.mem_hashDigits digit hdigit))
    exact congrArg (Option.map String.ofList) (Text.takeOctets?_of_ascii hascii shortHashLength)
  case header_line => exact c.lineFeed_not_mem_header id
  case header_last =>
    rw [entry, String.toList_ofList]
    exact hheader.text_last_not_blank (Message.last_not_blank_fold _ _)
  case body_first =>
    rw [entry, String.toList_ofList]
    intro first hfirst
    apply hbody.text_first_not_blank (Message.first_not_blank_trim _)
    exact Text.mem_head?_of_prefix htrimmed hfirst
  case body_last =>
    rw [entry, String.toList_ofList]
    exact fun last hlast => Text.getLast?_trimEnd_not_blank hlast

namespace Repository

variable {repository : Repository} {range : Range}

/-- Every entry of every log is well formed. -/
theorem wellFormed_of_mem_log
    {entries : List LogEntry} (h : repository.log range = .ok entries) :
    ∀ entry ∈ entries, entry.WellFormed := by
  intro entry hentry
  obtain ⟨id, c, -, rfl⟩ := exists_commit_of_mem_log h entry hentry
  exact c.wellFormed_entry id

/-- A branch with a commit in Latin-1 whose parts have blanks around them, of ASCII and others. -/
def frayed : Repository :=
  { sketch 1 [] [] with objects := [
      (numbered 1, .commit {
        parents := []
        time := 5
        encoding? := some (Text.toUtf8 "latin1".toList)
        message := Text.toUtf8 "\n\n\tfix: a\x0b\r\n b".toList ++ 0xa0 ::
          (Text.toUtf8 "\t \n\n \x0c".toList ++ 0x85 ::
            (Text.toUtf8 "body".toList ++ [0xa0, 0x0a, 0x20, 0x00, 0x21])) })] }

/-- Of the blanks that are not ASCII only those at the end of the body are gone. -/
theorem wellFormed_of_mem_log_frayed :
    ∃ entries, frayed.log { tip? := some "main" } = .ok entries ∧
      ⟨(numbered 1).toString, "\tfix: a b\u00a0", "\u0085body"⟩ ∈ entries ∧
      ∀ entry ∈ entries, entry.WellFormed := by
  have hlog : frayed.log { tip? := some "main" } =
      .ok [⟨(numbered 1).toString, "\tfix: a b\u00a0", "\u0085body"⟩] := by
    cbv
  exact ⟨_, hlog, List.mem_singleton_self _, wellFormed_of_mem_log hlog⟩

end Repository

end Changelog
