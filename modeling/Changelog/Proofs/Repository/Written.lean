import Changelog.Proofs.Repository.References
import Changelog.Proofs.Text.RoundTrip
import Mathlib

/-!
# Logs give back what was written

A message is written as a header, an empty line and a body, perhaps with line feeds at the end.  The
log gives back both parts as they were, in either encoding.

Three steps drop blanks on the way.  The header is folded and the body is trimmed while both are still
octets, and there only the blanks of ASCII count.  The end of the body is trimmed once more as a text,
and there all blanks of Unicode do.  So a body may begin with a blank that is not ASCII, but it may not
end in one.
-/

namespace Changelog

namespace Text

/-! ## Line feeds in octets -/

theorem toUtf8_cons_lineFeed (text : List Char) :
    toUtf8 ('\n' :: text) = lineFeed :: toUtf8 text :=
  rfl

theorem toUtf8_replicate_lineFeed (count : Nat) :
    toUtf8 (List.replicate count '\n') = List.replicate count lineFeed := by
  induction count with
  | zero => rfl
  | succ count ih => rw [List.replicate_succ, toUtf8_cons_lineFeed, ih, List.replicate_succ]

theorem toLatin1?_replicate_lineFeed (count : Nat) :
    toLatin1? (List.replicate count '\n') = some (List.replicate count lineFeed) := by
  induction count with
  | zero => rfl
  | succ count ih =>
      rw [List.replicate_succ, toLatin1?_cons_eq_some_iff]
      exact ⟨by decide, _, ih, rfl⟩

/-! ## Blanks in octets -/

/-- The blanks of ASCII. -/
def isAsciiBlank (c : Char) : Bool := [' ', '\t', '\n', '\x0b', '\x0c', '\r'].contains c

/-- An octet that is read by itself is a blank of ASCII if the octet is. -/
theorem isAsciiBlank_ofNat (octet : UInt8) :
    isAsciiBlank (Char.ofNat octet.toNat) = isBlankOctet octet :=
  forall_octet (p := fun octet => isAsciiBlank (Char.ofNat octet.toNat) = isBlankOctet octet)
    (by decide +kernel) octet

theorem isBlank_of_isAsciiBlank {c : Char} (h : isAsciiBlank c = true) : isBlank c = true := by
  have hall : [' ', '\t', '\n', '\x0b', '\x0c', '\r'].all isBlank = true := by decide
  exact List.all_eq_true.mp hall c (List.contains_iff_mem.mp h)

/-- A text that does not end in a blank is not trimmed. -/
theorem trimEnd_eq_self {text : List Char} (hlast : ∀ c ∈ text.getLast?, isBlank c = false) :
    trimEnd text = text := by
  change text.rdropWhile isBlank = text
  rw [List.rdropWhile_eq_self_iff]
  intro hne
  simp [hlast _ (List.getLast?_eq_getLast_of_ne_nil hne)]

/-- If no blank of ASCII ends a text, then none ends its octets. -/
theorem Aligned.last_not_blank {text : List Char} {octets : List UInt8} (h : Aligned text octets)
    (hlast : ∀ c ∈ text.getLast?, isAsciiBlank c = false) :
    ∀ octet ∈ octets.getLast?, isBlankOctet octet = false := by
  intro octet hoctet
  by_contra hblank
  rw [Bool.not_eq_false] at hblank
  have hascii : octet < 0x80 := beginsAscii_of_isBlankOctet hblank octets octet rfl
  have hchar := hlast _ (h.getLast?_eq hascii hoctet)
  rw [isAsciiBlank_ofNat, hblank] at hchar
  cases hchar

/-- If no blank of ASCII begins a text, then none begins its octets. -/
theorem Aligned.first_not_blank {text : List Char} {octets : List UInt8} (h : Aligned text octets)
    (hfirst : ∀ c ∈ text.head?, isAsciiBlank c = false) :
    ∀ octet ∈ octets.head?, isBlankOctet octet = false := by
  have hlast : ∀ c ∈ text.reverse.getLast?, isAsciiBlank c = false := by
    rwa [List.getLast?_reverse]
  have hoctets := h.reverse.last_not_blank hlast
  rwa [List.getLast?_reverse] at hoctets

end Text

namespace Message

/-! ## The two parts of stored octets -/

/-- Nothing is dropped in front of a line that is not empty. -/
theorem content_append
    {front rest : List UInt8} (hzero : 0 ∉ front ++ rest) (hfeed : Text.lineFeed ∉ front)
    (hne : front ≠ []) : content (front ++ rest) = front ++ rest := by
  obtain ⟨octet, others, rfl⟩ := List.exists_cons_of_ne_nil hne
  have hother : ¬(octet == Text.lineFeed) = true := by
    rw [beq_iff_eq]
    exact fun h => hfeed (h ▸ List.mem_cons_self)
  rw [content, takeWhile_of_zero_not_mem hzero, List.cons_append]
  exact List.dropWhile_cons_of_neg hother

/-- An empty line ends the paragraph. -/
theorem paragraph_append_lineFeeds
    {front : List UInt8} (h : Text.lineFeed ∉ front) (rest : List UInt8) :
    paragraph (front ++ Text.lineFeed :: Text.lineFeed :: rest) = front := by
  induction front with
  | nil => rfl
  | cons octet front ih =>
      rw [List.mem_cons, not_or] at h
      have hother : (octet == Text.lineFeed) = false := beq_false_of_ne (Ne.symm h.1)
      rw [List.cons_append, paragraph, hother, Bool.false_and, if_neg Bool.false_ne_true, ih h.2]

/-- What follows an empty line begins with the feed of that line. -/
theorem afterParagraph_append_lineFeeds
    {front : List UInt8} (h : Text.lineFeed ∉ front) (rest : List UInt8) :
    afterParagraph (front ++ Text.lineFeed :: Text.lineFeed :: rest) = Text.lineFeed :: rest := by
  induction front with
  | nil => rfl
  | cons octet front ih =>
      rw [List.mem_cons, not_or] at h
      have hother : (octet == Text.lineFeed) = false := beq_false_of_ne (Ne.symm h.1)
      rw [List.cons_append, afterParagraph, hother, Bool.false_and, if_neg Bool.false_ne_true,
        ih h.2]

/-- Folding keeps a line that does not end in a blank, as something is kept behind each run of blanks. -/
theorem fold_eq_append {run octets : List UInt8} (hrun : Text.lineFeed ∉ run)
    (hfeed : Text.lineFeed ∉ octets) (hne : octets ≠ [])
    (hlast : ∀ octet ∈ octets.getLast?, Text.isBlankOctet octet = false) :
    fold run octets = run ++ octets := by
  induction octets generalizing run with
  | nil => exact absurd rfl hne
  | cons octet octets ih =>
      rw [List.mem_cons, not_or] at hfeed
      have hrest : octets ≠ [] →
          ∀ o ∈ octets.getLast?, Text.isBlankOctet o = false := by
        intro hne o ho
        rw [List.getLast?_cons_of_ne_nil hne] at hlast
        exact hlast o ho
      rw [fold]
      split
      next hblank =>
        have hne' : octets ≠ [] := by
          rintro rfl
          rw [hlast octet rfl] at hblank
          cases hblank
        have hrun' : Text.lineFeed ∉ run ++ [octet] := by
          simpa [hrun] using hfeed.1
        rw [ih hrun' hfeed.2 hne' (hrest hne'), List.append_assoc, List.singleton_append]
      next =>
        have hkept : foldRun run = run := by
          rw [foldRun, if_neg (by simpa using hrun)]
        have hothers : fold [] octets = octets := by
          by_cases hnil : octets = []
          · rw [hnil, fold]
          · exact ih (List.not_mem_nil) hfeed.2 hnil (hrest hnil)
        rw [hkept, hothers]

/-- Trimming drops the blanks around what neither begins nor ends with one, and nothing else. -/
theorem trim_append {front middle back : List UInt8}
    (hfront : ∀ octet ∈ front, Text.isBlankOctet octet = true)
    (hback : ∀ octet ∈ back, Text.isBlankOctet octet = true)
    (hfirst : ∀ octet ∈ middle.head?, Text.isBlankOctet octet = false)
    (hlast : ∀ octet ∈ middle.getLast?, Text.isBlankOctet octet = false) :
    trim (front ++ (middle ++ back)) = middle := by
  rw [trim, List.dropWhile_append_of_pos hfront]
  cases middle with
  | nil =>
      rw [List.nil_append, List.dropWhile_eq_nil_iff.mpr hback]
      rfl
  | cons octet middle =>
      have hstart : ¬Text.isBlankOctet octet = true := by simp [hfirst octet rfl]
      have hreverse : ∀ octet ∈ back.reverse, Text.isBlankOctet octet = true :=
        fun octet hoctet => hback octet (List.mem_reverse.mp hoctet)
      have hkept : (octet :: middle).rdropWhile Text.isBlankOctet = octet :: middle := by
        rw [List.rdropWhile_eq_self_iff]
        intro hne
        simp [hlast _ (List.getLast?_eq_getLast_of_ne_nil hne)]
      rw [List.cons_append, List.dropWhile_cons_of_neg hstart, Text.trimOctets, ← List.cons_append,
        List.reverse_append, List.dropWhile_append_of_pos hreverse]
      exact hkept

/-- The header of octets that begin with a line which does not end in a blank, and an empty one. -/
theorem header_append_lineFeeds
    {front rest : List UInt8} (hzero : 0 ∉ front ++ Text.lineFeed :: Text.lineFeed :: rest)
    (hfeed : Text.lineFeed ∉ front) (hne : front ≠ [])
    (hlast : ∀ octet ∈ front.getLast?, Text.isBlankOctet octet = false) :
    header (front ++ Text.lineFeed :: Text.lineFeed :: rest) = front := by
  rw [header, content_append hzero hfeed hne, paragraph_append_lineFeeds hfeed]
  exact fold_eq_append List.not_mem_nil hfeed hne hlast

/-- The body of octets that begin with a line and an empty one and end with line feeds. -/
theorem body_append_lineFeeds
    {front back : List UInt8} {feeds : Nat}
    (hzero : 0 ∉ front ++ Text.lineFeed :: Text.lineFeed ::
      (back ++ List.replicate feeds Text.lineFeed))
    (hfeed : Text.lineFeed ∉ front) (hne : front ≠ [])
    (hfirst : ∀ octet ∈ back.head?, Text.isBlankOctet octet = false)
    (hlast : ∀ octet ∈ back.getLast?, Text.isBlankOctet octet = false) :
    body (front ++ Text.lineFeed :: Text.lineFeed ::
      (back ++ List.replicate feeds Text.lineFeed)) = back := by
  have hblank : ∀ count, ∀ octet ∈ List.replicate count Text.lineFeed,
      Text.isBlankOctet octet = true := by
    intro count octet hoctet
    rw [List.eq_of_mem_replicate hoctet, Text.isBlankOctet_lineFeed]
  rw [body, content_append hzero hfeed hne, afterParagraph_append_lineFeeds hfeed]
  exact trim_append (hblank 1) (hblank feeds) hfirst hlast

/-! ## Texts that can be written -/

/-- A text that can stand in the header of a message: it is not empty, it is on one line, and it does
not end in a blank of ASCII. -/
structure IsHeader (text : String) : Prop where
  ne_empty : text ≠ ""
  lineFeed : '\n' ∉ text.toList
  zero : '\x00' ∉ text.toList
  last : ∀ c ∈ text.toList.getLast?, Text.isAsciiBlank c = false

/-- A text that can stand in the body of a message: it does not begin with a blank of ASCII, nor does
it end in any blank. -/
structure IsBody (text : String) : Prop where
  zero : '\x00' ∉ text.toList
  first : ∀ c ∈ text.toList.head?, Text.isAsciiBlank c = false
  last : ∀ c ∈ text.toList.getLast?, Text.isBlank c = false

/-- The text of a message: a header, an empty line, a body, and line feeds. -/
def written (header body : String) (feeds : Nat) : List Char :=
  header.toList ++ '\n' :: '\n' :: (body.toList ++ List.replicate feeds '\n')

end Message

namespace Commit

/-- An octet is that of a character, which may be a capital, or of its small letter. -/
def IsEitherCase (octet : UInt8) (c : Char) : Prop :=
  octet.toNat = c.toNat ∨ octet.toNat = c.toLower.toNat

instance (octet : UInt8) (c : Char) : Decidable (IsEitherCase octet c) :=
  inferInstanceAs (Decidable (_ ∨ _))

/-- The octets of a name of Latin-1, each letter in either case. -/
def NamesLatin1 (name : List UInt8) : Prop :=
  ∃ capitals ∈ ["ISO-8859-1", "ISO8859-1", "LATIN1", "LATIN-1"],
    List.Forall₂ IsEitherCase name capitals.toList

/-- The message of a commit is a text, in UTF-8 without a name of the encoding, or in Latin-1 with
one. -/
inductive Stores (c : Commit) (text : List Char) : Prop
  | utf8 : c.encoding? = none → c.message = Text.toUtf8 text → Stores c text
  | latin1 {name : List UInt8} :
    c.encoding? = some name → NamesLatin1 name → Text.toLatin1? text = some c.message →
      Stores c text

theorem map_toUpper_ofLatin1 {name : List UInt8} {capitals : List Char}
    (h : List.Forall₂ IsEitherCase name capitals)
    (hcapitals : ∀ c ∈ capitals, c.toUpper = c ∧ c.toLower.toUpper = c) :
    (Text.ofLatin1 name).map Char.toUpper = capitals := by
  induction h with
  | nil => rfl
  | @cons octet c name capitals hoctet _ ih =>
      obtain ⟨⟨hupper, hlower⟩, hothers⟩ := List.forall_mem_cons.mp hcapitals
      have hfirst : (Char.ofNat octet.toNat).toUpper = c := by
        rcases hoctet with heq | heq
        · rw [heq, Char.ofNat_toNat, hupper]
        · rw [heq, Char.ofNat_toNat, hlower]
      rw [Text.ofLatin1, List.map_cons, List.map_cons, hfirst]
      exact congrArg (c :: ·) (ih hothers)

/-- Latin-1 is recognised by its names in either case. -/
theorem NamesLatin1.isLatin1 {c : Commit} {name : List UInt8} (h : NamesLatin1 name)
    (hname : c.encoding? = some name) : c.isLatin1 = true := by
  obtain ⟨capitals, hmem, hspelled⟩ := h
  have hcapitals : ∀ capitals ∈ latin1Names,
      capitals.toList.all (fun c => c.toUpper = c ∧ c.toLower.toUpper = c) = true := by
    decide +kernel
  have hupper := map_toUpper_ofLatin1 hspelled fun c hc =>
    of_decide_eq_true (List.all_eq_true.mp (hcapitals capitals hmem) c hc)
  rw [Commit.isLatin1, hname, Option.any_some, hupper, String.ofList_toList]
  exact List.contains_iff_mem.mpr hmem

/-- The octets of a message that was written: those of its two parts with line feeds between and
after. -/
theorem Stores.exists_parts {c : Commit} {header body : String} {feeds : Nat}
    (h : c.Stores (Message.written header body feeds)) :
    ∃ front back, c.message = front ++ Text.lineFeed :: Text.lineFeed ::
        (back ++ List.replicate feeds Text.lineFeed) ∧
      c.decode front = header.toList ∧ c.decode back = body.toList := by
  cases h with
  | utf8 hencoding hmessage =>
      have hutf8 : c.isLatin1 = false := by rw [Commit.isLatin1, hencoding]; rfl
      refine ⟨Text.toUtf8 header.toList, Text.toUtf8 body.toList, ?_, ?_, ?_⟩
      · rw [hmessage, Message.written, Text.toUtf8_append, Text.toUtf8_cons_lineFeed,
          Text.toUtf8_cons_lineFeed, Text.toUtf8_append, Text.toUtf8_replicate_lineFeed]
      · rw [decode, hutf8, if_neg Bool.false_ne_true, Text.ofUtf8Lossy_toUtf8]
      · rw [decode, hutf8, if_neg Bool.false_ne_true, Text.ofUtf8Lossy_toUtf8]
  | latin1 hencoding hname hmessage =>
      have hlatin1 : c.isLatin1 = true := hname.isLatin1 hencoding
      obtain ⟨front, rest, hfront, hrest, hjoin⟩ := Text.toLatin1?_append_eq_some_iff.mp hmessage
      obtain ⟨-, second, hsecond, rfl⟩ := Text.toLatin1?_cons_eq_some_iff.mp hrest
      obtain ⟨-, third, hthird, rfl⟩ := Text.toLatin1?_cons_eq_some_iff.mp hsecond
      obtain ⟨back, others, hback, hothers, rfl⟩ := Text.toLatin1?_append_eq_some_iff.mp hthird
      rw [Text.toLatin1?_replicate_lineFeed] at hothers
      obtain rfl := Option.some.inj hothers
      refine ⟨front, back, hjoin.symm, ?_, ?_⟩
      · rw [decode, if_pos hlatin1, Text.ofLatin1_of_toLatin1? hfront]
      · rw [decode, if_pos hlatin1, Text.ofLatin1_of_toLatin1? hback]

/-- The entry of a commit gives back the header and the body that were written.  What is known of these
holds of their octets, and it is octets that the message is cut into. -/
theorem entry_of_stores {c : Commit} {header body : String} {feeds : Nat}
    (hheader : Message.IsHeader header) (hbody : Message.IsBody body)
    (h : c.Stores (Message.written header body feeds)) (id : ObjectId) :
    c.entry id = ⟨id.toString, header, body⟩ := by
  obtain ⟨front, back, hmessage, hfront, hback⟩ := h.exists_parts
  have hfrontAligned : Text.Aligned header.toList front := hfront ▸ c.aligned_decode front
  have hbackAligned : Text.Aligned body.toList back := hback ▸ c.aligned_decode back
  have hfeed : Text.lineFeed ∉ front := by
    rw [← hfrontAligned.mem_iff (by decide)]
    exact hheader.lineFeed
  have hne : front ≠ [] := by
    rw [Ne, ← hfrontAligned.eq_nil_iff, String.toList_eq_nil_iff]
    exact hheader.ne_empty
  have hzero : 0 ∉ front ++ Text.lineFeed :: Text.lineFeed ::
      (back ++ List.replicate feeds Text.lineFeed) := by
    have hfrontZero : 0 ∉ front := by
      rw [← hfrontAligned.mem_iff (by decide)]
      exact hheader.zero
    have hbackZero : 0 ∉ back := by
      rw [← hbackAligned.mem_iff (by decide)]
      exact hbody.zero
    simp [hfrontZero, hbackZero, Text.lineFeed]
  have hbodyLast : ∀ c ∈ body.toList.getLast?, Text.isAsciiBlank c = false := by
    intro c hc
    by_contra hblank
    rw [Bool.not_eq_false] at hblank
    exact absurd (Text.isBlank_of_isAsciiBlank hblank) (by simp [hbody.last c hc])
  have hheaderOctets : Message.header c.message = front := by
    rw [hmessage]
    exact Message.header_append_lineFeeds hzero hfeed hne
      (hfrontAligned.last_not_blank hheader.last)
  have hbodyOctets : Message.body c.message = back := by
    rw [hmessage]
    exact Message.body_append_lineFeeds hzero hfeed hne
      (hbackAligned.first_not_blank hbody.first) (hbackAligned.last_not_blank hbodyLast)
  rw [entry, hheaderOctets, hbodyOctets, hfront, hback, Text.trimEnd_eq_self hbody.last,
    String.ofList_toList, String.ofList_toList]

end Commit

namespace Repository

variable {repository : Repository}

/-- A commit has one entry in a log. -/
theorem entry_eq_of_hash_eq
    {range : Range} {entries : List LogEntry} (hlog : repository.log range = .ok entries)
    {id : ObjectId} {c : Commit} (hcommit : repository.commit? id = some c)
    {entry : LogEntry} (hentry : entry ∈ entries) (hhash : entry.hash = id.toString) :
    entry = c.entry id := by
  obtain ⟨id', c', hcommit', rfl⟩ := exists_commit_of_mem_log hlog entry hentry
  obtain rfl : id' = id := ObjectId.toString_injective hhash
  rw [Option.some.inj (hcommit'.symm.trans hcommit)]

/-- A commit that is reached by the tip of a range and not by its base has an entry in the log. -/
theorem exists_log_of_reachable
    {range : Range} {base? : Option ObjectId} {tip : ObjectId}
    (hresolves : repository.Resolves range base? tip) (htip : repository.Holds tip)
    (hbase : ∀ base ∈ base?, repository.Holds base)
    (hanswered : range = .full → repository.isEmpty = .ok false)
    {id : ObjectId} (hreach : repository.history.Reachable tip id)
    (hshown : ∀ base ∈ base?, ¬repository.history.Reachable base id) :
    ∃ entries, repository.log range = .ok entries ∧ ∃ entry ∈ entries, entry.hash = id.toString := by
  obtain ⟨ids, entries, hids, hlog, hhashes⟩ :=
    exists_log_eq_ok hresolves htip hbase (isAnsweredEmpty_eq_ok_false_iff.mpr hanswered)
  have hmem : id ∈ ids := (History.covers_of_between hids).nothingLost id hreach hshown
  have hhash : id.toString ∈ entries.map LogEntry.hash :=
    hhashes ▸ toString_mem_map_toString.mpr hmem
  exact ⟨entries, hlog, List.mem_map.mp hhash⟩

/-- A message that was written as a header, an empty line, a body and line feeds, in either encoding,
is given back by the log.  Wherever a log has an entry of this commit, the entry has that header and
that body, to the last character; and the log of a range with complete ends has this entry if the tip
reaches the commit and the base does not. -/
theorem log_gives_back_written
    {id : ObjectId} {c : Commit} (hcommit : repository.commit? id = some c)
    {header body : String} {feeds : Nat} (hheader : Message.IsHeader header)
    (hbody : Message.IsBody body) (hstores : c.Stores (Message.written header body feeds)) :
    (∀ range entries, repository.log range = .ok entries →
      ∀ entry ∈ entries, entry.hash = id.toString → entry = ⟨id.toString, header, body⟩) ∧
    ∀ range base? tip, repository.Resolves range base? tip → repository.Holds tip →
      (∀ base ∈ base?, repository.Holds base) →
      (range = .full → repository.isEmpty = .ok false) →
      repository.history.Reachable tip id →
      (∀ base ∈ base?, ¬repository.history.Reachable base id) →
      ∃ entries, repository.log range = .ok entries ∧ ⟨id.toString, header, body⟩ ∈ entries := by
  have hgiven : ∀ range entries, repository.log range = .ok entries →
      ∀ entry ∈ entries, entry.hash = id.toString → entry = ⟨id.toString, header, body⟩ := by
    intro range entries hlog entry hentry hhash
    rw [entry_eq_of_hash_eq hlog hcommit hentry hhash]
    exact Commit.entry_of_stores hheader hbody hstores id
  refine ⟨hgiven, ?_⟩
  intro range base? tip hresolves htip hbase hanswered hreach hshown
  obtain ⟨entries, hlog, entry, hentry, hhash⟩ :=
    exists_log_of_reachable hresolves htip hbase hanswered hreach hshown
  exact ⟨entries, hlog, hgiven range entries hlog entry hentry hhash ▸ hentry⟩

/-- A commit in Latin-1.  Its header begins with a space and ends in a no-break space, and its body
begins with the next line of Unicode. -/
def blankedCommit : Commit where
  parents := []
  time := 5
  encoding? := some (Text.toUtf8 "Latin-1".toList)
  message := Text.toUtf8 " fix:  caf".toList ++
    [0xe9, 0xa0, 0x0a, 0x0a, 0x85, 0x62, 0x20, 0x0a, 0x0a, 0xe9, 0x0a, 0x0a]

/-- A branch with that commit only. -/
def blanked : Repository :=
  { sketch 1 [] [] with objects := [(numbered 1, .commit blankedCommit)] }

/-- No character of the two parts is lost. -/
theorem log_gives_back_blanked :
    ∃ entries, blanked.log { tip? := some "main" } = .ok entries ∧
      ⟨(numbered 1).toString, " fix:  caf\u00e9\u00a0", "\u0085b \n\n\u00e9"⟩ ∈ entries := by
  have hclosed : ∀ id ∈ blanked.objects.map Prod.fst, (blanked.commit? id).isSome ∧
      ∀ parent ∈ blanked.history.parents id, parent ∈ blanked.objects.map Prod.fst := by
    decide +kernel
  have hcommit : blanked.commit? (numbered 1) = some blankedCommit := by decide +kernel
  have hheader : Message.IsHeader " fix:  caf\u00e9\u00a0" :=
    ⟨by decide, by decide +kernel, by decide +kernel, by simp [Text.isAsciiBlank]⟩
  have hbody : Message.IsBody "\u0085b \n\n\u00e9" :=
    ⟨by decide +kernel, by simp [Text.isAsciiBlank], by simp [Text.isBlank, Text.blankRanges]⟩
  have hname : Commit.NamesLatin1 (Text.toUtf8 "Latin-1".toList) :=
    ⟨"LATIN-1", by decide, by decide +kernel⟩
  have hstores : blankedCommit.Stores
      (Message.written " fix:  caf\u00e9\u00a0" "\u0085b \n\n\u00e9" 2) :=
    .latin1 rfl hname (by decide +kernel)
  obtain ⟨-, hgiven⟩ := log_gives_back_written hcommit hheader hbody hstores
  exact hgiven { tip? := some "main" } none (numbered 1) ⟨by decide +kernel, rfl⟩
    (holds_of_parents_mem hclosed (by decide +kernel)) (fun base hbase => by cases hbase)
    (fun h => by cases h) History.Reachable.refl fun base hbase => by cases hbase

end Repository

end Changelog
