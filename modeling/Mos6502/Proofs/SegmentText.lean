import Mos6502.Proofs.AddressText

namespace Mos6502.CommandLine

theorem bind_eq_ok_iff {ε α γ : Type} {r : Except ε α} {f : α → Except ε γ} {c : γ} :
    r >>= f = .ok c ↔ ∃ a, r = .ok a ∧ f a = .ok c := by
  cases r with
  | error e => simp [bind, Except.bind]
  | ok a => simp [bind, Except.bind]

theorem not_mem_of_parseAddress {text : String} {addr : Addr} (h : parseAddress text = .ok addr) :
    '@' ∉ text.toList ∧ ':' ∉ text.toList := by
  have hex := parseAddress_eq_ok_iff.1 h
  exact ⟨hex.not_mem (by decide) (by decide) (by decide),
    hex.not_mem (by decide) (by decide) (by decide)⟩

theorem parseSegment_of_split {text : String} {path range : List Char}
    (h : splitLast '@' text.toList = some (path, range)) (hp : path ≠ []) :
    parseSegment text = match splitFirst ':' range with
      | none => do
        let first ← parseAddress (String.ofList range)
        return ⟨String.ofList path, first, none⟩
      | some (first, last) => do
        let first ← parseAddress (String.ofList first)
        let last ← parseAddress (String.ofList last)
        return ⟨String.ofList path, first, some last⟩ := by
  rw [parseSegment, h]
  cases path with
  | nil => exact absurd rfl hp
  | cons c path => rfl

/-- What a segment is written with: a path, and the texts of one or two addresses. -/
structure SegmentParts where
  path : String
  first : String
  last : Option String := none
  deriving DecidableEq, Repr

namespace SegmentParts

def range (p : SegmentParts) : String := match p.last with
  | none => p.first
  | some last => p.first ++ ":" ++ last

def text (p : SegmentParts) : String := p.path ++ "@" ++ p.range

structure Reads (p : SegmentParts) (s : Segment) : Prop where
  first : parseAddress p.first = .ok s.first
  last : Option.Rel (fun text addr => parseAddress text = .ok addr) p.last s.last

/-- The parts are those of `s`, and neither separator occurs where it would be taken for another. -/
structure Denotes (p : SegmentParts) (s : Segment) : Prop extends p.Reads s where
  path : p.path = s.path
  path_ne : p.path ≠ ""
  apart : '@' ∉ p.range.toList
  bare : p.last = none → ':' ∉ p.first.toList

variable {p p' : SegmentParts} {s s' : Segment}

theorem toList_text (p : SegmentParts) : p.text.toList = p.path.toList ++ '@' :: p.range.toList := by
  rw [text, String.toList_append, String.toList_append, List.append_assoc]
  rfl

theorem Reads.not_mem_range (h : p.Reads s) : '@' ∉ p.range.toList := by
  have first := (not_mem_of_parseAddress h.first).1
  have last := h.last
  unfold range
  generalize p.last = text, s.last = addr at last
  cases last with
  | none => exact first
  | some read =>
    have second := (not_mem_of_parseAddress read).1
    simp [first, second]

theorem Reads.count_range (h : p.Reads s) :
    p.range.toList.count ':' = if p.last.isSome then 1 else 0 := by
  have first := (not_mem_of_parseAddress h.first).2
  have last := h.last
  unfold range
  generalize p.last = text, s.last = addr at last
  cases last with
  | none => exact List.count_eq_zero.2 first
  | some read =>
    have second := (not_mem_of_parseAddress read).2
    simp [List.count_eq_zero.2 first, List.count_eq_zero.2 second]

theorem Reads.denotes (h : p.Reads s) (path : p.path = s.path) (hp : p.path ≠ "") :
    p.Denotes s where
  toReads := h
  path := path
  path_ne := hp
  apart := h.not_mem_range
  bare _ := (not_mem_of_parseAddress h.first).2

theorem Reads.splitFirst_range (h : p.Reads s) : splitFirst ':' p.range.toList =
    p.last.map fun last => (p.first.toList, last.toList) := by
  have first := (not_mem_of_parseAddress h.first).2
  unfold range
  cases p.last with
  | none => exact splitFirst_eq_none_iff.2 first
  | some last =>
    rw [String.toList_append, String.toList_append, List.append_assoc]
    exact splitFirst_append last.toList first

theorem parseSegment_text (h : p.Reads s) (path : p.path = s.path) (hp : p.path ≠ "") :
    parseSegment p.text = .ok s := by
  have split := splitLast_append p.path.toList h.not_mem_range
  rw [← toList_text] at split
  have nonempty : p.path.toList ≠ [] := by simpa using hp
  have first := h.first
  have last := h.last
  rw [parseSegment_of_split split nonempty, h.splitFirst_range, String.ofList_toList, path]
  obtain ⟨_, addr, given⟩ := s
  cases hl : p.last with
  | none =>
    rw [hl] at last
    cases last
    have bare : p.range = p.first := by rw [range, hl]
    rw [Option.map_none, String.ofList_toList, bare, first]
    rfl
  | some text =>
    rw [hl] at last
    cases last with
    | some read =>
      simp only [Option.map_some, String.ofList_toList, first, read]
      rfl

/-- A text has one path and one range, and a range one pair of addresses. -/
theorem Denotes.unique (h : p.Denotes s) (h' : p'.Denotes s') (same : p.text = p'.text) :
    p = p' ∧ s = s' := by
  have split := splitLast_append p.path.toList h.apart
  have split' := splitLast_append p'.path.toList h'.apart
  rw [← toList_text, same, toList_text, split', Option.some.injEq, Prod.mk.injEq,
    String.toList_inj, String.toList_inj] at split
  obtain ⟨path, range⟩ := split
  -- the ranges are one text, and each is split where its own parts meet
  have parts := h.splitFirst_range
  rw [← range, h'.splitFirst_range] at parts
  have read := parseSegment_text h.toReads h.path h.path_ne
  rw [same, parseSegment_text h'.toReads h'.path h'.path_ne] at read
  refine ⟨?_, (Except.ok.inj read).symm⟩
  obtain ⟨path₁, first, last⟩ := p
  obtain ⟨path₂, first', last'⟩ := p'
  cases last with
  | none =>
    cases last' with
    | none =>
      cases path
      cases range
      rfl
    | some last' => cases parts
  | some last =>
    cases last' with
    | none => cases parts
    | some last' =>
      simp only [Option.map_some, Option.some.injEq, Prod.mk.injEq, String.toList_inj] at parts
      obtain ⟨rfl, rfl⟩ := parts
      cases path
      rfl

end SegmentParts

theorem exists_parts {text : String} {s : Segment} (h : parseSegment text = .ok s) :
    ∃ p : SegmentParts, p.text = text ∧ p.Denotes s := by
  cases hs : splitLast '@' text.toList with
  | none => simp [parseSegment, hs] at h
  | some pair =>
    obtain ⟨path, range⟩ := pair
    have nonempty : path ≠ [] := by
      rintro rfl
      simp [parseSegment, hs] at h
    rw [parseSegment_of_split hs nonempty] at h
    obtain ⟨written, -⟩ := splitLast_eq_some_iff.1 hs
    have path_ne : String.ofList path ≠ "" := by simpa using nonempty
    cases hf : splitFirst ':' range with
    | none =>
      rw [hf] at h
      obtain ⟨addr, first, given⟩ := bind_eq_ok_iff.1 h
      cases given
      have reads : SegmentParts.Reads ⟨String.ofList path, String.ofList range, none⟩
          ⟨String.ofList path, addr, none⟩ := ⟨first, .none⟩
      refine ⟨_, ?_, reads.denotes rfl path_ne⟩
      rw [← String.toList_inj, SegmentParts.toList_text, written]
      simp [SegmentParts.range]
    | some pair =>
      obtain ⟨l, r⟩ := pair
      rw [hf] at h
      obtain ⟨addr, first, rest⟩ := bind_eq_ok_iff.1 h
      obtain ⟨addr', last, given⟩ := bind_eq_ok_iff.1 rest
      cases given
      obtain ⟨both, -⟩ := splitFirst_eq_some_iff.1 hf
      have reads : SegmentParts.Reads
          ⟨String.ofList path, String.ofList l, some (String.ofList r)⟩
          ⟨String.ofList path, addr, some addr'⟩ := ⟨first, .some last⟩
      refine ⟨_, ?_, reads.denotes rfl path_ne⟩
      rw [← String.toList_inj, SegmentParts.toList_text, written, both]
      simp [SegmentParts.range]

/-- A segment is read from the texts that are a path, which is not empty, an at-sign, and a range
that holds no at-sign: an address, or two with a colon between them. A text has no more than one such
form, and a segment is read back from its path and from any texts of its addresses. -/
theorem parseSegment_exact :
    (∀ text s, parseSegment text = .ok s ↔ ∃ p : SegmentParts, p.text = text ∧ p.Denotes s) ∧
    (∀ (p p' : SegmentParts) (s s' : Segment), p.Denotes s → p'.Denotes s' → p.text = p'.text →
      p = p' ∧ s = s') ∧
    (∀ (p : SegmentParts) (s : Segment), p.Denotes s →
      p.range.toList.count ':' = if p.last.isSome then 1 else 0) ∧
    ∀ (s : Segment) (first : String) (last : Option String), s.path ≠ "" →
      parseAddress first = .ok s.first →
      Option.Rel (fun text addr => parseAddress text = .ok addr) last s.last →
      parseSegment (SegmentParts.mk s.path first last).text = .ok s := by
  refine ⟨?_, ?_, ?_, ?_⟩
  · intro text s
    constructor
    · exact exists_parts
    · rintro ⟨p, rfl, h⟩
      exact SegmentParts.parseSegment_text h.toReads h.path h.path_ne
  · intro p p' s s' h h' same
    exact h.unique h' same
  · intro p s h
    exact h.count_range
  · intro s first last path_ne hf hl
    have reads : SegmentParts.Reads ⟨s.path, first, last⟩ s := ⟨hf, hl⟩
    exact SegmentParts.parseSegment_text reads rfl path_ne

example : parseSegment "a@b:c@0X00200:1fF" = .ok ⟨"a@b:c", 0x200, some 0x1FF⟩ := by decide

end Mos6502.CommandLine
