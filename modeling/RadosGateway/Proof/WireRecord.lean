import RadosGateway.Proof.ObjectCodec
import RadosGateway.UserRecords

/-!
# Records with old headers in them

The oldest structures of some types have a version of four bytes in front. Its first byte is read as
the version, and the other three are skipped if enough bytes are left: a buffer with `2 ^ 31` bytes
or more behind it is refused, as their number is an `int`. -/

namespace RadosGateway.Encoding

open Text Codec List

structure Wire where
  bytes : Bytes
  wide : List Nat := []

namespace Wire

def raw (bytes : Bytes) : Wire := ⟨bytes, []⟩

def append (w w' : Wire) : Wire :=
  ⟨w.bytes ++ w'.bytes, w.wide.map (· + w'.bytes.length) ++ w'.wide⟩

instance : Append Wire := ⟨append⟩

def concat (ws : List Wire) : Wire := ws.foldr (· ++ ·) (raw [])

def since (version structV : UInt8) (w : Wire) : Wire := if version ≤ structV then w else raw []

def struct (structV structCompat : UInt8) (body : Wire) : Wire :=
  ⟨header structV structCompat body.bytes.length ++ body.bytes, body.wide⟩

def legacy (compatv structV : UInt8) (body : Wire) : Wire :=
  if compatv ≤ structV then struct structV compatv body
    else ⟨encodeU8 structV ++ body.bytes, body.wide⟩

def legacy32 (compatv structV : UInt8) (body : Wire) : Wire :=
  if compatv ≤ structV then struct structV compatv body
  else ⟨encodeU8 structV ++ ([0, 0, 0] ++ body.bytes), (3 + body.bytes.length) :: body.wide⟩

def Near (w : Wire) (n : Nat) : Prop := ∀ k ∈ w.wide, k + n < 2 ^ 31

instance (w : Wire) (n : Nat) : Decidable (w.Near n) :=
  inferInstanceAs (Decidable (∀ k ∈ w.wide, k + n < 2 ^ 31))

@[simp]
theorem bytes_append (w w' : Wire) : (w ++ w').bytes = w.bytes ++ w'.bytes := rfl

@[simp]
theorem bytes_raw (bytes : Bytes) : (raw bytes).bytes = bytes := rfl

theorem append_assoc (w w' w'' : Wire) : w ++ w' ++ w'' = w ++ (w' ++ w'') := by
  change append (append w w') w'' = append w (append w' w'')
  simp [append]

theorem concat_cons (w : Wire) (ws : List Wire) : concat (w :: ws) = w ++ concat ws := rfl

theorem near_append {w w' : Wire} {n : Nat} : (w ++ w').Near n ↔ w.Near (w'.bytes.length + n) ∧
    w'.Near n := by
  change (∀ k ∈ w.wide.map (· + w'.bytes.length) ++ w'.wide, _) ↔ _
  rw [forall_mem_append, forall_mem_map]
  simp only [Near, add_assoc]

theorem near_cons_iff {bytes : Bytes} {k n : Nat} {w : Wire} :
    Near ⟨bytes, k :: w.wide⟩ n ↔ k + n < 2 ^ 31 ∧ w.Near n := forall_mem_cons

theorem near_of_wide_eq_nil {w : Wire} (h : w.wide = []) (n : Nat) : w.Near n := by
  rw [Near, h]
  exact forall_mem_nil _

@[simp]
theorem wide_raw (bytes : Bytes) : (raw bytes).wide = [] := rfl

@[simp]
theorem wide_append_eq_nil {w w' : Wire} : (w ++ w').wide = [] ↔ w.wide = [] ∧ w'.wide = [] := by
  change w.wide.map _ ++ w'.wide = [] ↔ _
  rw [append_eq_nil_iff, map_eq_nil_iff]

theorem wide_concat_eq_nil {ws : List Wire} (h : ∀ w ∈ ws, w.wide = []) :
    (concat ws).wide = [] := by
  induction ws with
  | nil => rfl
  | cons w ws ih =>
    obtain ⟨hw, hws⟩ := forall_mem_cons.mp h
    exact wide_append_eq_nil.mpr ⟨hw, ih hws⟩

@[simp]
theorem bytes_struct (structV structCompat : UInt8) (body : Wire) :
    (struct structV structCompat body).bytes = header structV structCompat body.bytes.length ++
      body.bytes := rfl

@[simp]
theorem wide_struct (structV structCompat : UInt8) (body : Wire) :
    (struct structV structCompat body).wide = body.wide := rfl

theorem wide_since {version structV : UInt8} {w : Wire} (h : w.wide = []) :
    (w.since version structV).wide = [] := by
  rw [since]
  split_ifs
  · exact h
  · rfl

@[simp]
theorem wide_since_raw (version structV : UInt8) (bytes : Bytes) :
    ((raw bytes).since version structV).wide = [] :=
  wide_since rfl

@[simp]
theorem wide_legacy (compatv structV : UInt8) (body : Wire) :
    (legacy compatv structV body).wide = body.wide := by
  rw [legacy]
  split_ifs <;> rfl

def got {α : Type} (w : Wire) (n : Nat) (a : α) : Option α := if w.Near n then some a else none

end Wire

def Gives {α : Type} (d : Decoder α) (w : Wire) (a : α) : Prop :=
  ∀ before rest, Fits before w.bytes rest →
    d ⟨before, w.bytes ++ rest⟩ = (w.got rest.length a).map fun a => (a, ⟨before ++ w.bytes, rest⟩)

section Gives

variable {α β : Type} {d : Decoder α} {f : α → Decoder β} {w w' : Wire} {a : α} {b : β}

theorem ReadsFit.gives {bytes : Bytes} (h : ReadsFit d bytes a) : Gives d (.raw bytes) a := by
  intro before rest hfits
  exact h before rest hfits

theorem gives_pure (a : α) : Gives (pure a) (.raw []) a := (readsFit_pure a).gives

theorem Gives.bind (h : Gives d w a) (h' : Gives (f a) w' b) : Gives (d >>= f) (w ++ w') b := by
  intro before rest hfits
  have hd := h _ _ hfits.left
  rw [Wire.got, length_append] at hd
  rw [Wire.bytes_append, List.append_assoc, Wire.got]
  by_cases hnear : w.Near (w'.bytes.length + rest.length)
  · have hiff : (w ++ w').Near rest.length ↔ w'.Near rest.length := by
      rw [Wire.near_append, and_iff_right hnear]
    rw [if_pos hnear] at hd
    rw [bind_of_eq_some hd, h' _ _ hfits.right, Wire.got, List.append_assoc]
    simp only [hiff]
  · rw [if_neg hnear] at hd
    rw [bind_of_eq_none hd, if_neg fun hw => hnear (Wire.near_append.mp hw).1]
    rfl

theorem Gives.map (h : Gives d w a) (g : α → β) : Gives (g <$> d) w (g a) := by
  intro before rest hfits
  have hmap : ∀ it, (g <$> d) it = (d it).map fun r => (g r.1, r.2) := by
    intro it
    change (d it).bind _ = _
    cases d it <;> rfl
  rw [hmap, h _ _ hfits, Wire.got, Wire.got]
  split_ifs <;> rfl

def field (version structV : UInt8) (stored old : α) : α := if version ≤ structV then stored
    else old

theorem gives_since {version structV : UInt8} {old : α} (h : version ≤ structV → Gives d w a) :
    Gives (since version structV d old) (w.since version structV)
    (field version structV a old) := by
  rw [since, Wire.since, field]
  split_ifs with hv
  · exact h hv
  · exact gives_pure old

end Gives

section Struct

variable {α : Type} {version : Nat} {fields : UInt8 →
  Decoder α} {structV : UInt8} {body : Wire} {a : α}

theorem gives_decodeStruct {structCompat : UInt8} (hversion : structCompat.toNat ≤ version)
    (h : Gives (fields structV) body a) :
    Gives (decodeStruct version fields) (.struct structV structCompat body) a := by
  intro before rest hfits
  exact decodeStruct_of_fields hversion hfits (h _ _ (Fits.right hfits))

variable {compatv : UInt8}

theorem gives_decodeStructLegacy_struct {skipV : Nat} (hcompatv : compatv ≤ structV)
    (hversion : compatv.toNat ≤ version) (h : Gives (fields structV) body a) :
    Gives (decodeStructLegacy version compatv.toNat compatv.toNat skipV fields)
    (.struct structV compatv body) a := by
  intro before rest hfits
  have hcompat : compatv.toNat ≤ structV.toNat := hcompatv
  rw [Wire.bytes_struct, List.append_assoc, decodeStructLegacy_header hcompat hcompat,
    ← List.append_assoc]
  exact gives_decodeStruct hversion h before rest hfits

theorem gives_legacy (hversion : compatv.toNat ≤ version) (h : Gives (fields structV) body a) :
    Gives (decodeStructLegacy version compatv.toNat compatv.toNat 0 fields)
    (.legacy compatv structV body) a := by
  rw [Wire.legacy]
  split_ifs with hv
  · exact gives_decodeStructLegacy_struct hv hversion h
  · have hbare : structV.toNat < compatv.toNat := Nat.lt_of_not_le hv
    intro before rest hfits
    rw [List.append_assoc, decodeStructLegacy_bare hbare hbare, h _ _ (Fits.right hfits),
      List.append_assoc]
    rfl

/-- A structure with a 32-bit length in the old form. -/
theorem gives_legacy32 (hversion : compatv.toNat ≤ version) (h : Gives (fields structV) body a) :
    Gives (decodeStructLegacy version compatv.toNat compatv.toNat 3 fields)
    (.legacy32 compatv structV body) a := by
  rw [Wire.legacy32]
  split_ifs with hv
  · exact gives_decodeStructLegacy_struct hv hversion h
  · have hold : structV.toNat < compatv.toNat := Nat.lt_of_not_le hv
    intro before rest hfits
    have hfields : Fits (before ++ encodeU8 structV ++ [0, 0, 0]) body.bytes rest := by
      rw [Fits, List.append_assoc before, List.append_assoc before,
        List.append_assoc (encodeU8 structV)]
      exact hfits
    have hrest : ([0, 0, 0] ++ (body.bytes ++ rest)).length < 2 ^ 32 := by
      rw [Fits, length_append, length_append, length_append] at hfits
      simp only [length_append] at hfits ⊢
      omega
    have hlength : ([0, 0, 0] ++ (body.bytes ++ rest) : Bytes).length = 3 + body.bytes.length +
        rest.length := by
      simp only [length_append, length_cons, length_nil]
      omega
    have hskip : decodeStructLegacy version compatv.toNat compatv.toNat 3 fields
          ⟨before, encodeU8 structV ++ ([0, 0, 0] ++ (body.bytes ++ rest))⟩
        = if ([0, 0, 0] ++ (body.bytes ++ rest) : Bytes).length < 2 ^ 31
          then fields structV ⟨before ++ encodeU8 structV ++ [0, 0, 0], body.bytes ++ rest⟩
            else none :=
      decodeStructLegacy_skip (cons_ne_nil 0 [0, 0]) hold hold hrest
    rw [List.append_assoc, List.append_assoc, hskip, hlength, h _ _ hfields, Wire.got, Wire.got]
    simp only [Wire.near_cons_iff, List.append_assoc]
    by_cases hnear : 3 + body.bytes.length + rest.length < 2 ^ 31
    · rw [if_pos hnear]
      simp only [hnear, true_and]
    · rw [if_neg hnear, if_neg fun hall => hnear hall.1]
      rfl

end Struct

section Containers

variable {κ V W α : Type} [LT κ]

def Wire.ofMap (key : κ → Bytes) (value : V → Wire) (m : OrderedMap κ V) : Wire :=
  .raw (le 4 m.entries.length) ++ .concat (m.entries.map fun e => .raw (key e.1) ++ value e.2)

variable {key : κ → Bytes} {m : OrderedMap κ V} {value : V → Wire}

theorem Wire.wide_ofMap_eq_nil
    (h : ∀ e ∈ m.entries, (value e.2).wide = []) : (Wire.ofMap key value m).wide = [] := by
  refine wide_append_eq_nil.mpr ⟨rfl, wide_concat_eq_nil ?_⟩
  rw [forall_mem_map]
  intro e he
  exact wide_append_eq_nil.mpr ⟨rfl, h e he⟩

variable {g : V → W}

theorem encodeMap_eq {encodeValue : V → Bytes → Bytes} {value : W → Wire}
    (h : ∀ v bl, encodeValue v bl = bl ++ (value (g v)).bytes) (m : OrderedMap κ V) (bl : Bytes) :
    encodeMap key encodeValue m bl = bl ++ (Wire.ofMap key value (m.map g)).bytes := by
  have hfold (es : List (κ × V)) (bl : Bytes) :
      es.foldl (fun bl e => encodeValue e.2 (bl ++ key e.1)) bl
        = bl ++ (Wire.concat ((es.map (Prod.map id g)).map fun e =>
          .raw (key e.1) ++ value e.2)).bytes := by
    induction es generalizing bl with
    | nil => exact (append_nil bl).symm
    | cons e es ih =>
      rw [foldl_cons, ih, h, map_cons, map_cons, Wire.concat_cons]
      simp
  rw [encodeMap, hfold, Wire.ofMap, Wire.bytes_append, Wire.bytes_raw, List.append_assoc]
  simp only [OrderedMap.map, length_map]

theorem encodeMap_plain_eq (key : κ → Bytes) (value : V → Bytes) (m : OrderedMap κ V) (bl : Bytes) :
    encodeMap key (fun v bl => bl ++ value v) m bl =
      bl ++ (Wire.ofMap key (fun v => .raw (value v)) m).bytes := by
  have h : encodeMap key (fun v bl => bl ++ value v) m bl
      = bl ++ (Wire.ofMap key (fun v => .raw (value v)) (m.map id)).bytes := by
    apply encodeMap_eq
    exact fun _ _ => rfl
  rwa [OrderedMap.map_id] at h

def listBytes (encode : α → Bytes) (l : List α) : Bytes := le 4 l.length ++ l.flatMap encode

theorem copyIn_append (bl src body : Bytes) {old : Bytes} (h : old.length = src.length) :
    copyIn (bl ++ old ++ body) bl.length src = bl ++ src ++ body := by
  have htake : (bl ++ old ++ body).take bl.length = bl := by
    rw [List.append_assoc, take_left]
  rw [copyIn, htake, ← h, ← length_append, drop_left]

theorem encodeList_eq (encode : α → Bytes) (l : List α) (bl : Bytes) :
    encodeList encode l bl = bl ++ listBytes encode l := by
  rw [encodeList, listBytes]
  by_cases hl : l = []
  · rw [hl, if_neg (not_not.mpr rfl), flatMap_nil, append_nil]
  · rw [if_pos hl]
    have hfold (l : List α) (bl : Bytes) : l.foldl (fun bl a => bl ++ encode a) bl =
        bl ++ l.flatMap encode := by
      induction l generalizing bl with
      | nil => exact (append_nil bl).symm
      | cons a l ih => rw [foldl_cons, ih, flatMap_cons, List.append_assoc]
    rw [hfold, copyIn_append _ _ _ (by rw [length_le, length_le]), List.append_assoc]

variable {encode : α → Bytes} {decode : Decoder α} {l : List α}

theorem readsFit_decodeItems
    (h : ∀ a ∈ l, ReadsFit decode (encode a) a) (l₀ : List α) :
    ReadsFit (decodeItems decode l.length l₀) (l.flatMap encode) (l₀ ++ l) := by
  induction l generalizing l₀ with
  | nil =>
    rw [append_nil]
    exact readsFit_pure l₀
  | cons a l ih =>
    obtain ⟨ha, hl⟩ := forall_mem_cons.mp h
    rw [flatMap_cons, append_cons]
    exact ha.bind (ih hl (l₀ ++ [a]))

theorem readsFit_decodeList (hlen : l.length < 2 ^ 32)
    (h : ∀ a ∈ l, ReadsFit decode (encode a) a) : ReadsFit (decodeList decode)
    (listBytes encode l) l := by
  have hn : l.length.toUInt32.toNat = l.length := UInt32.toNat_ofNat_of_lt' hlen
  apply (ReadsFit.of_reads (reads_decodeU32_of_lt hlen)).bind
  rw [hn]
  exact readsFit_decodeItems h []

variable [DecidableLT κ] [DecidableEq κ] [Trans (· < · : κ → κ → Prop) (· < ·) (· < ·)]
  [Std.Trichotomous (· < · : κ → κ → Prop)] [Std.Irrefl (· < · : κ → κ → Prop)]
  [Std.Asymm (· < · : κ → κ → Prop)]

variable {decodeKey : Decoder κ} {decodeValue : Decoder W}

/-- Entries come back in order, each as its value is read. -/
theorem gives_decodeEntries {es : List (κ × V)} (hkey : ∀ e ∈ es, ReadsFit decodeKey (key e.1) e.1)
    (hvalue : ∀ e ∈ es, Gives decodeValue (value e.2) (g e.2)) {m m' : OrderedMap κ W}
    (hm' : m'.entries = m.entries ++ es.map (Prod.map id g)) :
    Gives (decodeEntries decodeKey decodeValue es.length m)
      (.concat (es.map fun e => .raw (key e.1) ++ value e.2)) m' := by
  induction es generalizing m with
  | nil =>
    have hsame : m' = m := by
      ext1
      rw [hm', map_nil, append_nil]
    rw [hsame]
    exact gives_pure m
  | cons e es ih =>
    obtain ⟨hk, hkeys⟩ := forall_mem_cons.mp hkey
    obtain ⟨hv, hvalues⟩ := forall_mem_cons.mp hvalue
    have hsorted := m'.sorted
    rw [hm', map_cons] at hsorted
    have hinsert : (m.insert e.1 (g e.2)).entries = m.entries ++ [(e.1, g e.2)] :=
      OrderedMap.entries_insert hsorted
    rw [map_cons, Wire.concat_cons, Wire.append_assoc]
    apply hk.gives.bind
    apply hv.bind
    apply ih hkeys hvalues
    rw [hinsert, List.append_assoc, hm']
    rfl

section

variable (hlen : m.entries.length < 2 ^ 32)
  (hkey : ∀ e ∈ m.entries, ReadsFit decodeKey (key e.1) e.1)
include hlen hkey

theorem gives_decodeMap (hvalue : ∀ e ∈ m.entries, Gives decodeValue (value e.2) (g e.2)) :
    Gives (decodeMap decodeKey decodeValue) (.ofMap key value m) (m.map g) := by
  have hn : m.entries.length.toUInt32.toNat = m.entries.length := UInt32.toNat_ofNat_of_lt' hlen
  apply (ReadsFit.of_reads (reads_decodeU32_of_lt hlen)).gives.bind
  rw [hn]
  exact gives_decodeEntries hkey hvalue rfl

theorem gives_decodeMap_plain {value : V → Bytes} {decodeValue : Decoder V}
    (hvalue : ∀ e ∈ m.entries, ReadsFit decodeValue (value e.2) e.2) :
    Gives (decodeMap decodeKey decodeValue) (.ofMap key (fun v => .raw (value v)) m) m := by
  have h : Gives (decodeMap decodeKey decodeValue) (.ofMap key (fun v =>
    .raw (value v)) m) (m.map id) :=
    gives_decodeMap hlen hkey fun e he => (hvalue e he).gives
  rwa [OrderedMap.map_id] at h

end

end Containers

end RadosGateway.Encoding
