import RadosGateway.Base.Bytes

/-!
# XML documents

Elements, how they are written, and what a parser reports of them to its handlers: the start tag,
the text in one or several pieces, the elements inside and the end tag. What a parser is relied on
for is `Reader.Lawful`: documents of plain names and plain texts are reported as they were written.
Whatever else it accepts is left to it. -/

namespace Xml

open Text List

structure Element where
  name : Bytes
  attrs : List (Bytes × Bytes) := []
  data : Bytes := []
  children : List Element := []

inductive Event
  | start (name : Bytes) (attrs : List (Bytes × Bytes))
  | text (bytes : Bytes)
  | stop (name : Bytes)

/-- What is reported of a document, nothing if it is refused. -/
abbrev Reader := Bytes → Option (List Event)

def attrText (a : Bytes × Bytes) : Bytes := 32 :: a.1 ++ 61 :: 34 :: a.2 ++ [34]

def startTag (n : Bytes) (attrs : List (Bytes × Bytes)) : Bytes :=
  60 :: n ++ attrs.flatMap attrText ++ [62]

def endTag (n : Bytes) : Bytes := 60 :: 47 :: n ++ [62]

mutual

def Element.render : Element → Bytes
  | ⟨name, attrs, data, children⟩ => startTag name attrs ++ data ++ Element.renderAll children ++
    endTag name

def Element.renderAll : List Element → Bytes
  | [] => []
  | e :: es => e.render ++ Element.renderAll es

end

mutual

/-- The events of an element: its text may come in pieces. -/
inductive Delivers : Element → List Event → Prop
  | element {e : Element} {texts : List Bytes} {events : List Event}
    (hdata : texts.flatten = e.data)
      (hinside : DeliversAll e.children events) :
      Delivers e (.start e.name e.attrs :: (texts.map .text ++ (events ++ [.stop e.name])))

inductive DeliversAll : List Element → List Event → Prop
  | nil : DeliversAll [] []
  | cons {e : Element} {es : List Element} {events rest : List Event} (he : Delivers e events)
      (hes : DeliversAll es rest) : DeliversAll (e :: es) (events ++ rest)

end

/-! ### Plain documents -/

def isNameStart (b : UInt8) : Bool := isAlpha b || b = 58 || b = 95

def isNameByte (b : UInt8) : Bool := isNameStart b || isDigit b || b = 45 || b = 46

def isName (n : Bytes) : Bool := (n.head?.map isNameStart).getD false && n.all isNameByte

def isPlainValue (v : Bytes) : Bool := v.all fun b => 32 ≤ b && b < 127 && !(b ∈ ascii "<>&\"")

/-- Text that stands for itself: characters of XML in UTF-8, without markup, references, carriage
returns and the end of a CDATA section. -/
structure PlainText (s : Bytes) : Prop where
  utf8 : ∃ cs : List Char, cs.flatMap String.utf8EncodeChar = s
  bytes : ∀ b ∈ s, (b = 9 ∨ b = 10 ∨ 32 ≤ b) ∧ b ≠ 60 ∧ b ≠ 38
  brackets : ¬ ascii "]]>" <:+: s
  noncharacters : ¬ [0xEF, 0xBF, 0xBE] <:+: s ∧ ¬ [0xEF, 0xBF, 0xBF] <:+: s

def PlainAttrs (attrs : List (Bytes × Bytes)) : Prop :=
  (attrs.map Prod.fst).Nodup ∧ ∀ a ∈ attrs, isName a.1 = true ∧ isPlainValue a.2 = true

instance (attrs : List (Bytes × Bytes)) : Decidable (PlainAttrs attrs) :=
  inferInstanceAs (Decidable (_ ∧ _))

inductive Plain : Element → Prop
  | element {e : Element} (hname : isName e.name = true) (hattrs : PlainAttrs e.attrs)
      (hdata : PlainText e.data) (hchildren : ∀ c ∈ e.children, Plain c) : Plain e

/-- The contract of a parser. -/
def Reader.Lawful (read : Reader) : Prop :=
  ∀ e, Plain e → ∃ events, read e.render = some events ∧ Delivers e events

theorem PlainText.nil : PlainText [] := ⟨⟨[], rfl⟩, by simp, by simp [ascii], by simp⟩

theorem utf8_ascii {cs : List Char} (h : ∀ c ∈ cs, c.toNat < 128) :
    cs.flatMap String.utf8EncodeChar = cs.map fun c => c.toNat.toUInt8 := by
  rw [map_eq_flatMap]
  refine flatMap_congr fun c hc => ?_
  have hle : c.toNat ≤ 127 := Nat.le_of_lt_succ (h c hc)
  simp [String.utf8EncodeChar, hle]

def isPlainByte (b : UInt8) : Bool := 32 ≤ b && b < 128 && !(b ∈ ascii "<>&")

theorem plainText_ascii {s : String}
    (h : s.toList.all (fun c => c.toNat < 128 && isPlainByte c.toNat.toUInt8) = true) :
    PlainText (ascii s) := by
  have hchar := all_eq_true.mp h
  simp only [Bool.and_eq_true, decide_eq_true_eq] at hchar
  have hbyte : ∀ b ∈ ascii s, isPlainByte b = true := by
    intro b hb
    obtain ⟨c, hc, rfl⟩ := mem_map.mp hb
    exact (hchar c hc).2
  refine ⟨⟨s.toList, utf8_ascii fun c hc => (hchar c hc).1⟩, fun b hb => ?_, ?_, ?_, ?_⟩
  · have hplain := hbyte b hb
    simp only [isPlainByte, Bool.and_eq_true, decide_eq_true_eq] at hplain
    refine ⟨.inr (.inr hplain.1.1), ?_, ?_⟩
    · rintro rfl
      exact absurd hplain.2 (by decide)
    · rintro rfl
      exact absurd hplain.2 (by decide)
  · exact fun hin => absurd (hbyte 62 (hin.subset (by decide))) (by decide)
  · exact fun hin => absurd (hbyte 0xBF (hin.subset (by decide))) (by decide)
  · exact fun hin => absurd (hbyte 0xBF (hin.subset (by decide))) (by decide)

/-! ### A reader of plain documents

The contract can be met: the tags of a plain document are what stands between its angle brackets. -/

def attrsOf : List Bytes → List (Bytes × Bytes)
  | key :: value :: rest => ((key.dropWhile (· ≠ 32)).tail.dropLast, value) :: attrsOf rest
  | _ => []

def tagEvent : Bytes → Event
  | 47 :: name => .stop name
  | tag => .start (((splitOn 34 tag).headD []).takeWhile (· ≠ 32)) (attrsOf (splitOn 34 tag))

def textEvents (text : Bytes) : List Event := if text = [] then [] else [.text text]

def pieceEvents (piece : Bytes) : List Event :=
  tagEvent (piece.takeWhile (· ≠ 62)) :: textEvents (piece.dropWhile (· ≠ 62)).tail

def plainReader : Reader := fun doc => some ((splitOn 60 doc).tail.flatMap pieceEvents)

mutual

def Element.pieces : Element → List Bytes
  | ⟨name, attrs, data, children⟩ =>
    (name ++ attrs.flatMap attrText ++ 62 :: data) ::
      (Element.piecesAll children ++ [47 :: name ++ [62]])

def Element.piecesAll : List Element → List Bytes
  | [] => []
  | e :: es => e.pieces ++ Element.piecesAll es

end

mutual

theorem flatMap_pieces : (e : Element) → e.pieces.flatMap (60 :: ·) = e.render
  | ⟨name, attrs, data, children⟩ => by
    simp [Element.pieces, Element.render, startTag, endTag, flatMap_piecesAll children]

theorem flatMap_piecesAll : (es : List Element) →
    (Element.piecesAll es).flatMap (60 :: ·) = Element.renderAll es
  | [] => rfl
  | e :: es => by
    simp [Element.piecesAll, Element.renderAll, flatMap_pieces e, flatMap_piecesAll es]

end

theorem splitOn_pieces {piece : Bytes} {pieces : List Bytes} (hpiece : 60 ∉ piece)
    (h : ∀ p ∈ pieces, 60 ∉ p) :
    splitOn 60 (piece ++ pieces.flatMap (60 :: ·)) = piece :: pieces := by
  induction pieces generalizing piece with
  | nil => simpa using splitOn_eq_singleton hpiece
  | cons p pieces ih =>
    obtain ⟨hp, hrest⟩ := forall_mem_cons.mp h
    rw [flatMap_cons, cons_append, splitOn_append_cons_self_of_not_mem hpiece, ih hp hrest]

theorem notMem_of_isName {n : Bytes} {b : UInt8} (hn : isName n = true)
    (hb : isNameByte b = false) : b ∉ n := by
  intro hmem
  rw [isName, Bool.and_eq_true, all_eq_true] at hn
  rw [hn.2 b hmem] at hb
  cases hb

theorem notMem_of_isPlainValue {v : Bytes} {b : UInt8} (hv : isPlainValue v = true)
    (hb : b ∈ ascii "<>&\"") : b ∉ v := by
  intro hmem
  have hplain := all_eq_true.mp hv b hmem
  simp [hb] at hplain

theorem notMem_attrs {attrs : List (Bytes × Bytes)} {b : UInt8} (h : PlainAttrs attrs)
    (hb : isNameByte b = false)
    (hb' : b ∈ ascii "<>") : b ∉ attrs.flatMap attrText := by
  intro hmem
  obtain ⟨a, ha, hmem⟩ := mem_flatMap.mp hmem
  have hname := notMem_of_isName (h.2 a ha).1 hb
  have hvalue := notMem_of_isPlainValue (h.2 a ha).2 (mem_append_left (ascii "&\"") hb')
  have hother : b ≠ 32 ∧ b ≠ 61 ∧ b ≠ 34 := by
    refine ⟨?_, ?_, ?_⟩ <;> rintro rfl <;> exact absurd hb' (by decide)
  simp [attrText, hname, hvalue, hother] at hmem

/-- The attributes are read back from what stands between quotes. -/
theorem attrsOf_splitOn {attrs : List (Bytes × Bytes)}
    (h : ∀ a ∈ attrs, isName a.1 = true ∧ isPlainValue a.2 = true)
    {front : Bytes} (hblank : 32 ∉ front) (hquote : 34 ∉ front) :
    attrsOf (splitOn 34 (front ++ attrs.flatMap attrText)) = attrs := by
  induction attrs generalizing front with
  | nil =>
    rw [flatMap_nil, append_nil, splitOn_eq_singleton hquote]
    rfl
  | cons a attrs ih =>
    obtain ⟨⟨hname, hvalue⟩, hrest⟩ := forall_mem_cons.mp h
    have hkey : 34 ∉ front ++ 32 :: a.1 ++ [61] := by
      simp [hquote, notMem_of_isName hname (show isNameByte 34 = false by decide)]
    have hsplit : front ++ (a :: attrs).flatMap attrText =
        (front ++ 32 :: a.1 ++ [61]) ++ 34 :: (a.2 ++ 34 :: attrs.flatMap attrText) := by
      simp [attrText]
    rw [hsplit, splitOn_append_cons_self_of_not_mem hkey,
      splitOn_append_cons_self_of_not_mem (notMem_of_isPlainValue hvalue (by decide)), attrsOf]
    have hdrop : (front ++ 32 :: a.1 ++ [61]).dropWhile (· ≠ 32) = 32 :: a.1 ++ [61] := by
      rw [append_assoc, dropWhile_append_of_pos]
      · simp
      · intro b hb
        simpa using fun heq : b = 32 => hblank (heq ▸ hb)
    have htail : attrsOf (splitOn 34 ([] ++ attrs.flatMap attrText)) = attrs :=
      ih hrest not_mem_nil not_mem_nil
    rw [nil_append] at htail
    rw [hdrop, htail, cons_append, tail_cons, dropLast_concat]

theorem headD_splitOn {attrs : List (Bytes × Bytes)} {front : Bytes} (hblank : 32 ∉ front)
    (hquote : 34 ∉ front)
    (h : ∀ a ∈ attrs, isName a.1 = true) :
    ((splitOn 34 (front ++ attrs.flatMap attrText)).headD []).takeWhile (· ≠ 32) = front := by
  have htake : ∀ b ∈ front, decide (b ≠ 32) = true := by
    intro b hb
    simpa using fun heq : b = 32 => hblank (heq ▸ hb)
  cases attrs with
  | nil =>
    rw [flatMap_nil, append_nil, splitOn_eq_singleton hquote]
    simpa using takeWhile_eq_self_iff.mpr htake
  | cons a attrs =>
    have hkey : 34 ∉ front ++ 32 :: a.1 ++ [61] := by
      simp [hquote, notMem_of_isName (h a (by simp)) (show isNameByte 34 = false by decide)]
    have hsplit : front ++ (a :: attrs).flatMap attrText =
        (front ++ 32 :: a.1 ++ [61]) ++ 34 :: (a.2 ++ 34 :: attrs.flatMap attrText) := by
      simp [attrText]
    rw [hsplit, splitOn_append_cons_self_of_not_mem hkey, headD_cons, append_assoc,
      takeWhile_append_of_pos htake]
    simp

theorem tagEvent_start {n : Bytes} {attrs : List (Bytes × Bytes)} (hn : isName n = true)
    (h : PlainAttrs attrs) :
    tagEvent (n ++ attrs.flatMap attrText) = .start n attrs := by
  have hfirst : ∀ rest, n ++ attrs.flatMap attrText ≠ 47 :: rest := by
    intro rest heq
    cases n with
    | nil => cases hn
    | cons b n =>
      obtain rfl : b = 47 := (cons.inj heq).1
      exact absurd hn (by simp [isName, isNameStart, isAlpha])
  rw [tagEvent.eq_2 _ hfirst,
    attrsOf_splitOn h.2 (notMem_of_isName hn (by decide)) (notMem_of_isName hn (by decide)),
    headD_splitOn (notMem_of_isName hn (by decide)) (notMem_of_isName hn (by decide)) fun a ha =>
      (h.2 a ha).1]

theorem pieceEvents_append {tag : Bytes} (h : 62 ∉ tag) (text : Bytes) :
    pieceEvents (tag ++ 62 :: text) = tagEvent tag :: textEvents text := by
  have htag : ∀ b ∈ tag, decide (b ≠ 62) = true := by
    intro b hb
    simpa using fun heq : b = 62 => h (heq ▸ hb)
  rw [pieceEvents, takeWhile_append_of_pos htag, dropWhile_append_of_pos htag]
  simp

theorem exists_textEvents (text : Bytes) : ∃ texts : List Bytes, texts.flatten = text ∧
    textEvents text = texts.map .text := by
  unfold textEvents
  split_ifs with hempty
  · exact ⟨[], hempty.symm, rfl⟩
  · exact ⟨[text], by simp, rfl⟩

/-- The text of a plain element, cut at its tags, is delivered piece by piece. -/
theorem delivers_pieces {e : Element} (h : Plain e) :
    (∀ p ∈ e.pieces, 60 ∉ p) ∧ Delivers e (e.pieces.flatMap pieceEvents) := by
  induction h with
  | @element e hname hattrs hdata _ ih =>
    obtain ⟨name, attrs, data, children⟩ := e
    have hinside : (∀ p ∈ Element.piecesAll children, 60 ∉ p) ∧
        DeliversAll children ((Element.piecesAll children).flatMap pieceEvents) := by
      clear * - ih
      induction children with
      | nil => exact ⟨by simp [Element.piecesAll], .nil⟩
      | cons c children ihc =>
        obtain ⟨hc, hrest⟩ := forall_mem_cons.mp ih
        obtain ⟨hpieces, hdelivers⟩ := ihc hrest
        rw [Element.piecesAll, flatMap_append]
        exact ⟨forall_mem_append.mpr ⟨hc.1, hpieces⟩, .cons hc.2 hdelivers⟩
    have hno {b : UInt8} (hb : isNameByte b = false) (hb' : b ∈ ascii "<>") :
        b ∉ name ++ attrs.flatMap attrText := by
      rw [mem_append, not_or]
      exact ⟨notMem_of_isName hname hb, notMem_attrs hattrs hb hb'⟩
    obtain ⟨texts, hflatten, htexts⟩ := exists_textEvents data
    constructor
    · intro p hp
      rcases mem_cons.mp hp with rfl | hp
      · have hdata' : 60 ∉ data := fun hmem => (hdata.bytes 60 hmem).2.1 rfl
        have hfront := hno (show isNameByte 60 = false by decide) (by decide)
        simp only [mem_append, mem_cons, not_or] at hfront ⊢
        exact ⟨hfront, by decide, hdata'⟩
      · rcases mem_append.mp hp with hp | hp
        · exact hinside.1 p hp
        · rw [mem_singleton.mp hp]
          simp [notMem_of_isName hname (show isNameByte 60 = false by decide)]
    · have hstop : pieceEvents (47 :: name ++ [62]) = [.stop name] := by
        have hclose : 62 ∉ 47 :: name := by
          simp [notMem_of_isName hname (show isNameByte 62 = false by decide)]
        exact pieceEvents_append hclose []
      have hstart :=
        pieceEvents_append (hno (show isNameByte 62 = false by decide) (by decide)) data
      rw [tagEvent_start hname hattrs, htexts] at hstart
      rw [Element.pieces, flatMap_cons, hstart, flatMap_append, flatMap_singleton, hstop]
      exact .element hflatten hinside.2

theorem plainReader_lawful : plainReader.Lawful := by
  intro e he
  obtain ⟨hpieces, hdelivers⟩ := delivers_pieces he
  refine ⟨_, ?_, hdelivers⟩
  have hsplit : splitOn 60 ([] ++ e.pieces.flatMap (60 :: ·)) = [] :: e.pieces :=
    splitOn_pieces not_mem_nil hpieces
  rw [nil_append, flatMap_pieces] at hsplit
  rw [plainReader, hsplit, tail_cons]

end Xml
