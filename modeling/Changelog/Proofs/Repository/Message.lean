import Changelog.Proofs.Issue.References
import Changelog.Proofs.Text.Alignment
import Changelog.Repository.Object
import Mathlib

/-!
# What becomes of the references in a message

A message is cut twice: its header ends at the first line of blanks, and its body begins after the
first line without any character.  If the first line of blanks does hold a blank, the two cuts differ,
and what stands between them is in neither part.

Everything about references follows from one equation: a message can be cut at any blank, in whatever
encoding it is read.  Folding and trimming touch blanks only.  So the references of a message are
those of its header, of what was skipped, and of its body, in this order.
-/

namespace Changelog

namespace Message

/-- The octets up to and with the line feed that the body follows; all of them without a body. -/
def beforeBody : List UInt8 → List UInt8
  | [] => []
  | octet :: rest =>
    if octet == Text.lineFeed && (rest.head?.all (· == Text.lineFeed)) then [octet]
    else octet :: beforeBody rest

/-- The octets of a message that neither its header nor its body is made of. -/
def skipped (stored : List UInt8) : List UInt8 :=
  (beforeBody (content stored)).drop (paragraph (content stored)).length

/-- No line of blanks holds a blank. -/
def BlankLinesEmpty (stored : List UInt8) : Prop :=
  ∀ before after, content stored = before ++ Text.lineFeed :: after →
    blankLine after = true → ∀ octet ∈ after.head?, octet = Text.lineFeed

end Message

namespace Commit

/-- The references in octets of a message. -/
def references (c : Commit) (octets : List UInt8) : List (List Char) :=
  Issue.references (c.decode octets)

/-- In either encoding a text has the ASCII of its octets. -/
theorem aligned_decode (c : Commit) (octets : List UInt8) :
    Text.Aligned (c.decode octets) octets := by
  unfold decode
  split
  · exact Text.aligned_ofLatin1 octets
  · exact Text.aligned_ofUtf8Lossy octets

/-! ## Cutting a message at blanks -/

theorem decode_append
    (c : Commit) (octets : List UInt8) {after : List UInt8} (h : Text.BeginsApart after) :
    c.decode (octets ++ after) = c.decode octets ++ c.decode after := by
  unfold decode
  split
  · exact List.map_append
  · rw [Text.ofUtf8Lossy, Text.utf8Units_append octets h, List.map_append]
    rfl

theorem decode_cons_of_isBlankOctet
    (c : Commit) {octet : UInt8} (h : Text.isBlankOctet octet = true) (octets : List UInt8) :
    c.decode (octet :: octets) = Char.ofNat octet.toNat :: c.decode octets := by
  have hascii : octet < 0x80 := Text.beginsAscii_of_isBlankOctet h octets octet rfl
  unfold decode
  split
  · rfl
  · rw [Text.ofUtf8Lossy, Text.utf8Units_ascii _ hascii]
    rfl

theorem isBlank_ofNat_of_isBlankOctet
    {octet : UInt8} (h : Text.isBlankOctet octet = true) :
    Text.isBlank (Char.ofNat octet.toNat) = true := by
  simp only [Text.isBlankOctet, Bool.or_eq_true, beq_iff_eq, Bool.and_eq_true, decide_eq_true_eq,
    UInt8.le_iff_toNat_le] at h
  rcases h with rfl | ⟨hlow, hhigh⟩
  · decide
  · have hlow : 9 ≤ octet.toNat := hlow
    have hhigh : octet.toNat ≤ 13 := hhigh
    interval_cases octet.toNat <;> decide

/-- A message can be cut at any blank. -/
theorem references_append_blank
    (c : Commit) (front : List UInt8) {blank : UInt8} (h : Text.isBlankOctet blank = true)
    (octets : List UInt8) :
    c.references (front ++ blank :: octets) = c.references front ++ c.references octets := by
  obtain ⟨hmark, hdigit⟩ := Issue.ne_mark_of_isBlank (isBlank_ofNat_of_isBlankOctet h)
  have hhead : ∀ d ∈ (Char.ofNat blank.toNat :: c.decode octets).head?, d.isDigit = false := by
    intro d hd
    obtain rfl := Option.some.inj hd
    exact hdigit
  rw [references, decode_append c front (Text.beginsAscii_of_isBlankOctet h octets).beginsApart,
    decode_cons_of_isBlankOctet c h, Issue.references_append _ hhead,
    Issue.references_cons_of_ne hmark]
  rfl

@[simp] theorem references_nil (c : Commit) : c.references [] = [] := by
  unfold references decode
  split <;> simp [Text.ofLatin1, Text.ofUtf8Lossy]

/-- A blank in front has no references. -/
theorem references_cons_blank
    (c : Commit) {blank : UInt8} (h : Text.isBlankOctet blank = true) (octets : List UInt8) :
    c.references (blank :: octets) = c.references octets := by
  simpa using c.references_append_blank [] h octets

theorem references_blanks_append
    (c : Commit) {blanks : List UInt8} (h : ∀ b ∈ blanks, Text.isBlankOctet b = true)
    (octets : List UInt8) : c.references (blanks ++ octets) = c.references octets := by
  induction blanks with
  | nil => rfl
  | cons b blanks ih =>
      rw [List.cons_append, c.references_cons_blank (h b List.mem_cons_self),
        ih fun d hd => h d (List.mem_cons_of_mem b hd)]

/-- A message can be cut at a run of blanks. -/
theorem references_append_blanks
    (c : Commit) (front : List UInt8) {blanks : List UInt8} (hne : blanks ≠ [])
    (h : ∀ b ∈ blanks, Text.isBlankOctet b = true) (octets : List UInt8) :
    c.references (front ++ (blanks ++ octets)) = c.references front ++ c.references octets := by
  cases blanks with
  | nil => exact absurd rfl hne
  | cons b blanks =>
      rw [List.cons_append, c.references_append_blank front (h b List.mem_cons_self),
        c.references_blanks_append fun d hd => h d (List.mem_cons_of_mem b hd)]

/-- Blanks at the end have no references. -/
theorem references_append_blanks_end
    (c : Commit) (front : List UInt8) {blanks : List UInt8}
    (h : ∀ b ∈ blanks, Text.isBlankOctet b = true) :
    c.references (front ++ blanks) = c.references front := by
  by_cases hne : blanks = []
  · rw [hne, List.append_nil]
  · have hcut := c.references_append_blanks front hne h []
    rwa [List.append_nil, references_nil, List.append_nil] at hcut

/-! ## Folding and trimming -/

/-- Trimming loses no reference. -/
theorem references_trim (c : Commit) (octets : List UInt8) :
    c.references (Message.trim octets) = c.references octets := by
  have hfront : ∀ b ∈ octets.takeWhile Text.isBlankOctet, Text.isBlankOctet b = true :=
    fun b hb => List.all_eq_true.mp List.all_takeWhile b hb
  obtain ⟨rest, hrest⟩ : ∃ rest, rest = octets.dropWhile Text.isBlankOctet := ⟨_, rfl⟩
  have hend : ∀ b ∈ (rest.reverse.takeWhile Text.isBlankOctet).reverse,
      Text.isBlankOctet b = true :=
    fun b hb => List.all_eq_true.mp List.all_takeWhile b (List.mem_reverse.mp hb)
  have hsplit : Text.trimOctets rest ++ (rest.reverse.takeWhile Text.isBlankOctet).reverse =
      rest := by
    rw [Text.trimOctets, ← List.reverse_append, List.takeWhile_append_dropWhile,
      List.reverse_reverse]
  calc c.references (Message.trim octets)
      = c.references (Text.trimOctets rest) := by rw [Message.trim, hrest]
    _ = c.references rest := by
        rw [← c.references_append_blanks_end _ hend, hsplit]
    _ = c.references octets := by
        rw [← c.references_blanks_append hfront, hrest, List.takeWhile_append_dropWhile]

/-- A run of blanks may be folded. -/
theorem references_append_foldRun
    (c : Commit) (front : List UInt8) {run : List UInt8}
    (hrun : ∀ b ∈ run, Text.isBlankOctet b = true) (octets : List UInt8) :
    c.references (front ++ (Message.foldRun run ++ octets)) =
      c.references (front ++ (run ++ octets)) := by
  unfold Message.foldRun
  split
  next hline =>
    have hne : run ≠ [] := by
      rintro rfl
      simp at hline
    rw [c.references_append_blanks front hne hrun octets]
    exact c.references_append_blank front (by decide) octets
  · rfl

/-- Folding loses no reference, whatever stands in front.  An octet that is kept goes to the front, with
the run before it. -/
theorem references_append_fold
    (c : Commit) (front run : List UInt8) (hrun : ∀ b ∈ run, Text.isBlankOctet b = true)
    (octets : List UInt8) :
    c.references (front ++ Message.fold run octets) = c.references (front ++ (run ++ octets)) := by
  induction octets generalizing front run with
  | nil =>
      rw [Message.fold, List.append_nil, List.append_nil, c.references_append_blanks_end front hrun]
  | cons octet octets ih =>
      rw [Message.fold]
      split
      next hblank =>
        have hrun' : ∀ b ∈ run ++ [octet], Text.isBlankOctet b = true := by
          intro b hb
          rcases List.mem_append.mp hb with hb | hb
          · exact hrun b hb
          · exact List.mem_singleton.mp hb ▸ hblank
        rw [ih front (run ++ [octet]) hrun', List.append_assoc]
        rfl
      next =>
        have hmoved : front ++ (Message.foldRun run ++ octet :: Message.fold [] octets) =
            (front ++ (Message.foldRun run ++ [octet])) ++ Message.fold [] octets := by
          simp
        rw [hmoved, ih _ [] (by simp), ← c.references_append_foldRun front hrun (octet :: octets)]
        simp

end Commit

/-! ## The parts of a message -/

namespace Message

/-- A message without a zero octet does not end early. -/
theorem takeWhile_of_zero_not_mem {stored : List UInt8} (h : 0 ∉ stored) :
    stored.takeWhile (· != 0) = stored := by
  rw [List.takeWhile_eq_self_iff]
  intro octet hoctet
  exact bne_iff_ne.mpr fun hzero => h (hzero ▸ hoctet)

theorem beforeBody_append_afterParagraph (octets : List UInt8) :
    beforeBody octets ++ afterParagraph octets = octets := by
  induction octets with
  | nil => rfl
  | cons octet octets ih =>
      rw [beforeBody, afterParagraph]
      split
      · rfl
      · rw [List.cons_append, ih]

/-- A line without any octet holds blanks only. -/
theorem blankLine_of_head
    {octets : List UInt8} (h : octets.head?.all (· == Text.lineFeed) = true) :
    blankLine octets = true := by
  cases octets with
  | nil => rfl
  | cons octet octets =>
      have hline : (octet == Text.lineFeed) = true := h
      rw [blankLine, hline, Bool.true_or]

theorem exists_beforeBody_cons (octet : UInt8) (octets : List UInt8) :
    ∃ rest, beforeBody (octet :: octets) = octet :: rest := by
  rw [beforeBody]
  split
  · exact ⟨[], rfl⟩
  · exact ⟨beforeBody octets, rfl⟩

/-- The paragraph ends where the part in front of the body does, or earlier in front of a line of
blanks. -/
theorem beforeBody_eq_paragraph_or (octets : List UInt8) :
    beforeBody octets = paragraph octets ∨
      ∃ after, octets = paragraph octets ++ Text.lineFeed :: after ∧ blankLine after = true ∧
        beforeBody octets = paragraph octets ++ beforeBody (Text.lineFeed :: after) := by
  induction octets with
  | nil => exact Or.inl rfl
  | cons octet octets ih =>
      rw [paragraph]
      split
      next hend =>
        rw [Bool.and_eq_true, beq_iff_eq] at hend
        obtain ⟨rfl, hblank⟩ := hend
        exact Or.inr ⟨octets, rfl, hblank, rfl⟩
      next hgoes =>
        have hother : ¬(octet == Text.lineFeed && octets.head?.all (· == Text.lineFeed)) = true := by
          intro h
          rw [Bool.and_eq_true] at h
          exact hgoes (by rw [h.1, blankLine_of_head h.2, Bool.and_true])
        rw [beforeBody, if_neg hother]
        rcases ih with hsame | ⟨after, heq, hblank, hbefore⟩
        · exact Or.inl (by rw [hsame])
        · refine Or.inr ⟨after, ?_, hblank, ?_⟩
          · rw [List.cons_append, ← heq]
          · rw [hbefore, List.cons_append]

/-- Nothing is skipped, or what begins with the line of blanks at which the paragraph ends. -/
theorem skipped_cases (stored : List UInt8) :
    skipped stored = [] ∨
      ∃ after, content stored = paragraph (content stored) ++ Text.lineFeed :: after ∧
        blankLine after = true ∧ skipped stored = beforeBody (Text.lineFeed :: after) := by
  rcases beforeBody_eq_paragraph_or (content stored) with hsame | ⟨after, heq, hblank, hbefore⟩
  · exact Or.inl (by rw [skipped, hsame, List.drop_length])
  · exact Or.inr ⟨after, heq, hblank, by rw [skipped, hbefore, List.drop_left]⟩

theorem paragraph_append_skipped (stored : List UInt8) :
    paragraph (content stored) ++ skipped stored = beforeBody (content stored) := by
  unfold skipped
  rcases beforeBody_eq_paragraph_or (content stored) with hsame | ⟨after, -, -, hbefore⟩
  · rw [hsame, List.drop_length, List.append_nil]
  · rw [hbefore, List.drop_left]

/-- The part in front of the body ends in a line feed, unless there is no body. -/
theorem beforeBody_cases (octets : List UInt8) :
    afterParagraph octets = [] ∨ ∃ front, beforeBody octets = front ++ [Text.lineFeed] := by
  induction octets with
  | nil => exact Or.inl rfl
  | cons octet octets ih =>
      rw [beforeBody, afterParagraph]
      split
      next hend =>
        rw [Bool.and_eq_true, beq_iff_eq] at hend
        exact Or.inr ⟨[], by rw [hend.1]; rfl⟩
      next =>
        rcases ih with hnone | ⟨front, hfront⟩
        · exact Or.inl hnone
        · exact Or.inr ⟨octet :: front, by rw [hfront, List.cons_append]⟩

/-- Where no line of blanks holds a blank, at most a line feed is skipped. -/
theorem BlankLinesEmpty.skipped_subset
    {stored : List UInt8} (h : BlankLinesEmpty stored) :
    ∀ octet ∈ skipped stored, octet = Text.lineFeed := by
  rcases skipped_cases stored with hnone | ⟨after, heq, hblank, hskipped⟩
  · simp [hnone]
  · have hhead : after.head?.all (· == Text.lineFeed) = true := by
      rw [Option.all_eq_true]
      exact fun octet hoctet => beq_iff_eq.mpr (h _ after heq hblank octet hoctet)
    have hline : beforeBody (Text.lineFeed :: after) = [Text.lineFeed] := by
      rw [beforeBody, hhead]
      rfl
    rw [hskipped, hline]
    simp

end Message

namespace Commit

/-- What a message holds in front of its content has no references. -/
theorem references_content (c : Commit) (h : 0 ∉ c.message) :
    c.references (Message.content c.message) = c.references c.message := by
  have hfeeds : ∀ b ∈ c.message.takeWhile (· == Text.lineFeed), Text.isBlankOctet b = true := by
    intro b hb
    have hfeed : (b == Text.lineFeed) = true := List.all_eq_true.mp List.all_takeWhile b hb
    rw [beq_iff_eq.mp hfeed, Text.isBlankOctet_lineFeed]
  have hdrop := c.references_blanks_append hfeeds (c.message.dropWhile (· == Text.lineFeed))
  rw [List.takeWhile_append_dropWhile] at hdrop
  rw [Message.content, Message.takeWhile_of_zero_not_mem h, hdrop]

theorem references_header (c : Commit) :
    c.references (Message.header c.message) =
      c.references (Message.paragraph (Message.content c.message)) :=
  c.references_append_fold [] [] (by simp) _

/-- The first cut is in front of the line of blanks at which the paragraph ends. -/
theorem references_beforeBody (c : Commit) :
    c.references (Message.beforeBody (Message.content c.message)) =
      c.references (Message.paragraph (Message.content c.message)) ++
        c.references (Message.skipped c.message) := by
  rw [← Message.paragraph_append_skipped]
  rcases Message.skipped_cases c.message with hnone | ⟨after, -, -, hskipped⟩
  · rw [hnone, List.append_nil, references_nil, List.append_nil]
  · obtain ⟨rest, hrest⟩ := Message.exists_beforeBody_cons Text.lineFeed after
    rw [hskipped, hrest, c.references_append_blank _ Text.isBlankOctet_lineFeed,
      c.references_cons_blank Text.isBlankOctet_lineFeed]

/-- The second cut is behind the line feed that the body follows. -/
theorem references_beforeBody_append_afterParagraph (c : Commit) (octets : List UInt8) :
    c.references octets =
      c.references (Message.beforeBody octets) ++ c.references (Message.afterParagraph octets) := by
  conv_lhs => rw [← Message.beforeBody_append_afterParagraph octets]
  rcases Message.beforeBody_cases octets with hnone | ⟨front, hfront⟩
  · rw [hnone, List.append_nil, references_nil, List.append_nil]
  · have hend : c.references (front ++ [Text.lineFeed]) = c.references front := by
      rw [c.references_append_blank front Text.isBlankOctet_lineFeed, references_nil, List.append_nil]
    rw [hfront, hend, List.append_assoc]
    exact c.references_append_blank front Text.isBlankOctet_lineFeed _

/-- The references of a message are those of its header, of what was skipped and of its body. -/
theorem references_message
    (c : Commit) (h : 0 ∉ c.message) :
    c.references c.message = c.references (Message.header c.message) ++
      c.references (Message.skipped c.message) ++ c.references (Message.body c.message) := by
  rw [← c.references_content h, c.references_beforeBody_append_afterParagraph,
    c.references_beforeBody, ← c.references_header, Message.body, references_trim]

end Commit

end Changelog
