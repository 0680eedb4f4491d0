import Conformance.Proofs.Canonical.Decoding

/-!
# What was encoded is decoded

An encoding is read back with whatever follows it, as a value that agrees with
the encoded one, when there is room for all its levels. Otherwise the reader
refuses it for its depth, since everything before the first part that lies too
deep is read without fault.
-/
namespace Conformance.Canonical
open Conformance

def Reads (one : Step) (code : Bytes) (v : Value) : Prop :=
  ∀ rest, one (code ++ rest) = .ok (v, rest)

def Refuses (one : Step) (code : Bytes) (refusal : DecodeRefusal) : Prop :=
  ∀ rest, one (code ++ rest) = .error refusal

/-- Whatever follows an encoding, it is read, or else it is refused for the given reason. -/
def Settles (one : Step) (code : Bytes) (refusal : DecodeRefusal) : Prop :=
  (∃ v, Reads one code v) ∨ Refuses one code refusal

theorem Reads.not_refuses {one : Step} {code : Bytes} {v : Value} {refusal : DecodeRefusal}
    (h : Reads one code v) : ¬ Refuses one code refusal := by
  intro hr
  cases (h []).symm.trans (hr [])

section Walks
variable {one : Step} {refusal : DecodeRefusal}

theorem decodeItems_succ {item : Value} {code : Bytes} (hitem : Reads one code item) (count : ℕ)
    (rest : Bytes) :
    decodeItems one (count + 1) (code ++ rest) = (do
      let (items, rest) ← decodeItems one count rest
      return (item :: items, rest)) := by
  rw [decodeItems, hitem, ok_bind]

theorem decodeItems_reads {codes : List Bytes} {items : List Value}
    (h : List.Forall₂ (Reads one) codes items) (rest : Bytes) :
    decodeItems one codes.length (codes.flatten ++ rest) = .ok (items, rest) := by
  induction h with
  | nil => rfl
  | cons hitem hitems ih =>
    rw [List.flatten_cons, List.append_assoc, List.length_cons, decodeItems_succ hitem, ih]
    rfl

/-- The first item that is refused decides, if those before it are read. -/
theorem decodeItems_refuses {codes : List Bytes}
    (h : ∀ code ∈ codes, Settles one code refusal)
    (hbad : ∃ code ∈ codes, Refuses one code refusal) (rest : Bytes) :
    decodeItems one codes.length (codes.flatten ++ rest) = .error refusal := by
  induction codes with
  | nil => simp at hbad
  | cons code codes ih =>
    rw [List.flatten_cons, List.append_assoc, List.length_cons]
    rcases h code List.mem_cons_self with ⟨v, hv⟩ | hr
    · have hlater : ∃ c ∈ codes, Refuses one c refusal := by
        obtain ⟨c, hc, hrefuses⟩ := hbad
        rcases List.mem_cons.mp hc with rfl | hc
        · exact absurd hrefuses hv.not_refuses
        · exact ⟨c, hc, hrefuses⟩
      rw [decodeItems_succ hv, ih (fun c hc => h c (List.mem_cons_of_mem code hc)) hlater]
      rfl
    · rw [decodeItems, hr]
      rfl

theorem writeEntries_cons (p : EncodedEntry) (encoded : List EncodedEntry) (rest : Bytes) :
    writeEntries (p :: encoded) ++ rest = p.1 ++ (p.2 ++ (writeEntries encoded ++ rest)) := by
  simp [writeEntries]

/-- One turn of the walk over entries: the key that was read is the one compared. -/
theorem decodeEntries_succ {key : Value} {keyCode : Bytes} (hkey : Reads one keyCode key)
    (total count : ℕ) (previous : Option Bytes) (hfollow : mayFollow previous keyCode = true)
    (rest : Bytes) :
    decodeEntries total one (count + 1) previous (keyCode ++ rest) = (do
      let (value, rest) ← one rest
      let (entries, rest) ← decodeEntries total one count (some keyCode) rest
      return ((key, value) :: entries, rest)) := by
  have htaken : (keyCode ++ rest).take ((keyCode ++ rest).length - rest.length) = keyCode := by
    simp
  rw [decodeEntries, hkey, ok_bind]
  simp only [htaken, hfollow, if_true]

theorem decodeEntries_reads {encoded : List EncodedEntry} {entries : List (Value × Value)}
    (h : List.Forall₂ (fun p e => Reads one p.1 e.1 ∧ Reads one p.2 e.2) encoded entries)
    (hincrease : KeysIncrease encoded) (total : ℕ) (previous : Option Bytes)
    (hfollow : ∀ p ∈ encoded, mayFollow previous p.1 = true) (rest : Bytes) :
    decodeEntries total one encoded.length previous (writeEntries encoded ++ rest) =
      .ok (entries, rest) := by
  induction h generalizing previous with
  | nil => rfl
  | @cons p e encoded entries hentry hentries ih =>
    obtain ⟨hkey, hvalue⟩ := hentry
    obtain ⟨hlt, hincrease⟩ := List.pairwise_cons.mp hincrease
    have hnext : ∀ q ∈ encoded, mayFollow (some p.1) q.1 = true := fun q hq => by
      simp [mayFollow, hlt q hq]
    rw [writeEntries_cons, List.length_cons,
      decodeEntries_succ hkey _ _ _ (hfollow p List.mem_cons_self), hvalue, ok_bind]
    dsimp only
    rw [ih hincrease _ hnext]
    rfl

theorem decodeEntries_refuses {encoded : List EncodedEntry}
    (h : ∀ p ∈ encoded, Settles one p.1 refusal ∧ Settles one p.2 refusal)
    (hbad : ∃ p ∈ encoded, Refuses one p.1 refusal ∨ Refuses one p.2 refusal)
    (hincrease : KeysIncrease encoded) (total : ℕ) (previous : Option Bytes)
    (hfollow : ∀ p ∈ encoded, mayFollow previous p.1 = true) (rest : Bytes) :
    decodeEntries total one encoded.length previous (writeEntries encoded ++ rest) =
      .error refusal := by
  induction encoded generalizing previous with
  | nil => simp at hbad
  | cons p encoded ih =>
    obtain ⟨hlt, hincrease⟩ := List.pairwise_cons.mp hincrease
    obtain ⟨hk, hw⟩ := h p List.mem_cons_self
    rw [writeEntries_cons, List.length_cons]
    rcases hk with ⟨key, hkey⟩ | hkey
    · rw [decodeEntries_succ hkey _ _ _ (hfollow p List.mem_cons_self)]
      rcases hw with ⟨value, hvalue⟩ | hvalue
      · have hlater : ∃ q ∈ encoded, Refuses one q.1 refusal ∨ Refuses one q.2 refusal := by
          obtain ⟨q, hq, hrefuses⟩ := hbad
          rcases List.mem_cons.mp hq with rfl | hq
          · exact (hrefuses.elim hkey.not_refuses hvalue.not_refuses).elim
          · exact ⟨q, hq, hrefuses⟩
        have hnext : ∀ q ∈ encoded, mayFollow (some p.1) q.1 = true := fun q hq => by
          simp [mayFollow, hlt q hq]
        rw [hvalue, ok_bind]
        dsimp only
        rw [ih (fun q hq => h q (List.mem_cons_of_mem p hq)) hlater hincrease _ hnext]
        rfl
      · rw [hvalue]
        rfl
    · rw [decodeEntries, hkey]
      rfl

end Walks

theorem checkCount_of_le {total count least : ℕ} {bytes : Bytes}
    (h : count * least ≤ bytes.length) : checkCount total count least bytes = .ok () :=
  if_pos h

theorem length_le_flatten {codes : List Bytes} (h : ∀ code ∈ codes, 0 < code.length) :
    codes.length ≤ codes.flatten.length := by
  induction codes with
  | nil => simp
  | cons code codes ih =>
    have hcode := h code List.mem_cons_self
    have hcodes := ih fun c hc => h c (List.mem_cons_of_mem code hc)
    rw [List.flatten_cons, List.length_append, List.length_cons]
    omega

theorem length_le_writeEntries {encoded : List EncodedEntry}
    (h : ∀ p ∈ encoded, 0 < p.1.length ∧ 0 < p.2.length) :
    encoded.length * 2 ≤ (writeEntries encoded).length := by
  induction encoded with
  | nil => simp
  | cons p encoded ih =>
    have hp := h p List.mem_cons_self
    have hrest := ih fun q hq => h q (List.mem_cons_of_mem p hq)
    have hsplit := writeEntries_cons p encoded []
    simp only [List.append_nil] at hsplit
    rw [hsplit, List.length_append, List.length_append, List.length_cons]
    omega

theorem length_le_length_flatten {codes : List Bytes} {code : Bytes} (h : code ∈ codes) :
    code.length ≤ codes.flatten.length :=
  (List.sublist_flatten_of_mem h).length_le

theorem length_le_length_writeEntries {encoded : List EncodedEntry} {p : EncodedEntry}
    (h : p ∈ encoded) : p.1.length + p.2.length ≤ (writeEntries encoded).length := by
  have hmem : p.1 ++ p.2 ∈ encoded.map fun q => q.1 ++ q.2 := List.mem_map_of_mem h
  have hle := length_le_length_flatten hmem
  rwa [List.length_append, ← List.flatMap_def] at hle

theorem decodeValue_write (total room : ℕ) (major : Major) {n : ℕ} (hn : n < UInt64.size)
    (content : Bytes) :
    decodeValue total (room + 1) (Header.write major n ++ content) =
      decodeContent total (decodeValue total room) major n content := by
  rw [decodeValue, Header.read_write_append total major hn, ok_bind]

section Content
variable {total : ℕ} {one : Step}

theorem decodeContent_array {codes : List Bytes} (hpos : ∀ code ∈ codes, 0 < code.length)
    (rest : Bytes) :
    decodeContent total one .array codes.length (codes.flatten ++ rest) = (do
      let (items, rest) ← decodeItems one codes.length (codes.flatten ++ rest)
      return (.array items, rest)) := by
  have hcount : codes.length * 1 ≤ (codes.flatten ++ rest).length := by
    have := length_le_flatten hpos
    rw [List.length_append]
    omega
  rw [decodeContent, checkCount_of_le hcount, ok_bind]

theorem decodeContent_map {encoded : List EncodedEntry}
    (hpos : ∀ p ∈ encoded, 0 < p.1.length ∧ 0 < p.2.length) (rest : Bytes) :
    decodeContent total one .map encoded.length (writeEntries encoded ++ rest) = (do
      let (entries, rest) ←
        decodeEntries total one encoded.length none (writeEntries encoded ++ rest)
      return (.map entries, rest)) := by
  have hcount : encoded.length * 2 ≤ (writeEntries encoded ++ rest).length := by
    have := length_le_writeEntries hpos
    rw [List.length_append]
    omega
  rw [decodeContent, checkCount_of_le hcount, ok_bind]

theorem decodeContent_bytes (b rest : Bytes) :
    decodeContent total one .bytes b.length (b ++ rest) = .ok (.bytes b, rest) := by
  rw [decodeContent, checkCount_of_le (by simp), ok_bind, List.take_left, List.drop_left]
  rfl

theorem decodeContent_text (s : String) (rest : Bytes) :
    decodeContent total one .text (Bytes.ofString s).length (Bytes.ofString s ++ rest) =
      .ok (.text s, rest) := by
  rw [decodeContent, checkCount_of_le (by simp), ok_bind, List.take_left, List.drop_left,
    Text.Utf8.decode_ofString]
  rfl

end Content

section Levels
variable {total room : ℕ}

theorem reads_array {codes : List Bytes} {items : List Value} (hlen : codes.length < UInt64.size)
    (hpos : ∀ code ∈ codes, 0 < code.length)
    (h : List.Forall₂ (Reads (decodeValue total room)) codes items) :
    Reads (decodeValue total (room + 1)) (Header.write .array codes.length ++ codes.flatten)
      (.array items) := by
  intro rest
  rw [List.append_assoc, decodeValue_write total room _ hlen, decodeContent_array hpos,
    decodeItems_reads h]
  rfl

theorem refuses_array {codes : List Bytes} {refusal : DecodeRefusal}
    (hlen : codes.length < UInt64.size) (hpos : ∀ code ∈ codes, 0 < code.length)
    (h : ∀ code ∈ codes, Settles (decodeValue total room) code refusal)
    (hbad : ∃ code ∈ codes, Refuses (decodeValue total room) code refusal) :
    Refuses (decodeValue total (room + 1)) (Header.write .array codes.length ++ codes.flatten)
      refusal := by
  intro rest
  rw [List.append_assoc, decodeValue_write total room _ hlen, decodeContent_array hpos,
    decodeItems_refuses h hbad]
  rfl

theorem reads_map {encoded : List EncodedEntry} {entries : List (Value × Value)}
    (hlen : encoded.length < UInt64.size)
    (hpos : ∀ p ∈ encoded, 0 < p.1.length ∧ 0 < p.2.length) (hincrease : KeysIncrease encoded)
    (h : List.Forall₂ (fun p e => Reads (decodeValue total room) p.1 e.1 ∧
      Reads (decodeValue total room) p.2 e.2) encoded entries) :
    Reads (decodeValue total (room + 1)) (Header.write .map encoded.length ++ writeEntries encoded)
      (.map entries) := by
  intro rest
  rw [List.append_assoc, decodeValue_write total room _ hlen, decodeContent_map hpos,
    decodeEntries_reads h hincrease _ _ fun _ _ => rfl]
  rfl

theorem refuses_map {encoded : List EncodedEntry} {refusal : DecodeRefusal}
    (hlen : encoded.length < UInt64.size)
    (hpos : ∀ p ∈ encoded, 0 < p.1.length ∧ 0 < p.2.length) (hincrease : KeysIncrease encoded)
    (h : ∀ p ∈ encoded, Settles (decodeValue total room) p.1 refusal ∧
      Settles (decodeValue total room) p.2 refusal)
    (hbad : ∃ p ∈ encoded, Refuses (decodeValue total room) p.1 refusal ∨
      Refuses (decodeValue total room) p.2 refusal) :
    Refuses (decodeValue total (room + 1))
      (Header.write .map encoded.length ++ writeEntries encoded) refusal := by
  intro rest
  rw [List.append_assoc, decodeValue_write total room _ hlen, decodeContent_map hpos,
    decodeEntries_refuses h hbad hincrease _ _ fun _ _ => rfl]
  rfl

end Levels

/-- What the parts of an array's encoding are like when the whole fits a byte string. -/
theorem array_codes_bounds {items : List Value} {codes : List Bytes}
    (h : List.Forall₂ Encodes items codes)
    (hlen : (Header.write .array codes.length ++ codes.flatten).length < UInt64.size) :
    (∀ code ∈ codes, 0 < code.length ∧ code.length < UInt64.size) ∧
      codes.length < UInt64.size := by
  rw [List.length_append] at hlen
  have hpos : ∀ code ∈ codes, 0 < code.length := fun code hc =>
    (Pointwise.exists_left h hc).elim fun _ hi => hi.2.length_pos
  have hcount := length_le_flatten hpos
  refine ⟨fun code hc => ⟨hpos code hc, ?_⟩, by omega⟩
  have hle := length_le_length_flatten hc
  omega

theorem map_codes_bounds {given : List (Value × Value)} {sorted : List EncodedEntry}
    (h : List.Forall₂ EncodesEntry given sorted)
    (hlen : (Header.write .map sorted.length ++ writeEntries sorted).length < UInt64.size) :
    (∀ p ∈ sorted, (0 < p.1.length ∧ 0 < p.2.length) ∧
      p.1.length < UInt64.size ∧ p.2.length < UInt64.size) ∧ sorted.length < UInt64.size := by
  rw [List.length_append] at hlen
  have hpos : ∀ p ∈ sorted, 0 < p.1.length ∧ 0 < p.2.length := fun p hp =>
    (Pointwise.exists_left h hp).elim fun _ he => ⟨he.2.1.length_pos, he.2.2.length_pos⟩
  have hcount := length_le_writeEntries hpos
  refine ⟨fun p hp => ⟨hpos p hp, ?_⟩, by omega⟩
  have hle := length_le_length_writeEntries hp
  omega

/-- With room for every level, an encoding is read as a value that agrees with the encoded one. -/
theorem decodeValue_reads (total : ℕ) {v : Value} {bytes : Bytes} (h : Encodes v bytes)
    (hlen : bytes.length < UInt64.size) {room : ℕ} (hroom : v.depth < room) :
    ∃ w, Reads (decodeValue total room) bytes w ∧ w.arranged = v.arranged := by
  induction v using Value.induction generalizing bytes room with
  | unsigned n =>
    obtain ⟨room, rfl⟩ := Nat.exists_eq_add_one_of_ne_zero (Nat.ne_zero_of_lt hroom)
    obtain rfl := (encodes_unsigned n bytes).mp h
    refine ⟨.unsigned n, fun rest => ?_, rfl⟩
    rw [decodeValue_write total room _ n.toNat_lt, decodeContent, UInt64.ofNat_toNat]
  | bytes b =>
    obtain ⟨room, rfl⟩ := Nat.exists_eq_add_one_of_ne_zero (Nat.ne_zero_of_lt hroom)
    obtain rfl := (encodes_bytes b bytes).mp h
    rw [List.length_append] at hlen
    refine ⟨.bytes b, fun rest => ?_, rfl⟩
    rw [List.append_assoc, decodeValue_write total room _ (by omega), decodeContent_bytes]
  | text s =>
    obtain ⟨room, rfl⟩ := Nat.exists_eq_add_one_of_ne_zero (Nat.ne_zero_of_lt hroom)
    obtain rfl := (encodes_text s bytes).mp h
    rw [List.length_append] at hlen
    refine ⟨.text s, fun rest => ?_, rfl⟩
    rw [List.append_assoc, decodeValue_write total room _ (by omega), decodeContent_text]
  | array items ih =>
    obtain ⟨room, rfl⟩ := Nat.exists_eq_add_one_of_ne_zero (Nat.ne_zero_of_lt hroom)
    obtain ⟨codes, hcodes, rfl⟩ := (encodes_array items bytes).mp h
    have hdepth := (Value.depthItems_le_iff items room).mp (Nat.lt_succ_iff.mp hroom)
    obtain ⟨hbounds, hcount⟩ := array_codes_bounds hcodes hlen
    have hitems : List.Forall₂ (fun item code => ∃ w,
        Reads (decodeValue total room) code w ∧ item.arranged = w.arranged) items codes := by
      refine (Pointwise.with_mem hcodes).imp ?_
      rintro item code ⟨hi, hc, hcode⟩
      obtain ⟨w, hw, hagree⟩ := ih item hi hcode (hbounds code hc).2 (hdepth item hi)
      exact ⟨w, hw, hagree.symm⟩
    obtain ⟨others, hreads, hagree⟩ := Pointwise.exists_third hitems
    refine ⟨.array others, reads_array hcount (fun code hc => (hbounds code hc).1) hreads, ?_⟩
    exact Value.arranged_array_inj.mpr (Pointwise.map_eq_of hagree).symm
  | map entries ih =>
    obtain ⟨room, rfl⟩ := Nat.exists_eq_add_one_of_ne_zero (Nat.ne_zero_of_lt hroom)
    obtain ⟨given, sorted, hperm, hsorted, hincrease, rfl⟩ := (encodes_map entries bytes).mp h
    have hdepth := (Value.depthEntries_le_iff entries room).mp (Nat.lt_succ_iff.mp hroom)
    obtain ⟨hbounds, hcount⟩ := map_codes_bounds hsorted hlen
    have hentries : List.Forall₂ (fun e p => ∃ f : Value × Value,
        (Reads (decodeValue total room) p.1 f.1 ∧ Reads (decodeValue total room) p.2 f.2) ∧
          Value.arrangedEntry e = Value.arrangedEntry f) given sorted := by
      refine (Pointwise.with_mem hsorted).imp ?_
      rintro e p ⟨he, hp, hkey, hvalue⟩
      have he := hperm.subset he
      obtain ⟨-, hkeyLen, hvalueLen⟩ := hbounds p hp
      obtain ⟨key, hreadKey, hagreeKey⟩ := (ih e he).1 hkey hkeyLen (hdepth e he).1
      obtain ⟨value, hreadValue, hagreeValue⟩ := (ih e he).2 hvalue hvalueLen (hdepth e he).2
      exact ⟨(key, value), ⟨hreadKey, hreadValue⟩, Prod.ext hagreeKey.symm hagreeValue.symm⟩
    obtain ⟨others, hreads, hagree⟩ := Pointwise.exists_third hentries
    refine ⟨.map others, reads_map hcount (fun p hp => (hbounds p hp).1) hincrease hreads, ?_⟩
    rw [Value.arranged_map_inj, ← Pointwise.map_eq_of hagree]
    exact hperm.map _

/-- A part that has room for its levels is read; one that has not is left to the induction. -/
theorem settles_of_refuses {total room : ℕ} {v : Value} {code : Bytes} (h : Encodes v code)
    (hlen : code.length < UInt64.size)
    (hdeep : room ≤ v.depth → Refuses (decodeValue total room) code .tooDeep) :
    Settles (decodeValue total room) code .tooDeep := by
  rcases Nat.lt_or_ge v.depth room with hroom | hroom
  · obtain ⟨w, hw, -⟩ := decodeValue_reads total h hlen hroom
    exact .inl ⟨w, hw⟩
  · exact .inr (hdeep hroom)

/-- Without room for every level an encoding is refused for its depth and for nothing else. -/
theorem decodeValue_refuses (total : ℕ) {v : Value} {bytes : Bytes} (h : Encodes v bytes)
    (hlen : bytes.length < UInt64.size) {room : ℕ} (hroom : room ≤ v.depth) :
    Refuses (decodeValue total room) bytes .tooDeep := by
  induction v using Value.induction generalizing bytes room with
  | unsigned | bytes | text =>
    obtain rfl := Nat.le_zero.mp hroom
    exact fun _ => rfl
  | array items ih =>
    cases room with
    | zero => exact fun _ => rfl
    | succ room =>
      obtain ⟨codes, hcodes, rfl⟩ := (encodes_array items bytes).mp h
      obtain ⟨hbounds, hcount⟩ := array_codes_bounds hcodes hlen
      have heach : ∀ code ∈ codes, Settles (decodeValue total room) code .tooDeep := by
        intro code hc
        obtain ⟨item, hi, hcode⟩ := Pointwise.exists_left hcodes hc
        have hcodeLen := (hbounds code hc).2
        exact settles_of_refuses hcode hcodeLen fun hdeep => ih item hi hcode hcodeLen hdeep
      have hdeep : ∃ item ∈ items, room ≤ item.depth := by
        by_contra! hall
        exact absurd ((Value.depthItems_le_iff items room).mpr hall) (Nat.not_le.mpr hroom)
      obtain ⟨item, hi, hitem⟩ := hdeep
      obtain ⟨code, hc, hcode⟩ := Pointwise.exists_right hcodes hi
      exact refuses_array hcount (fun code hc => (hbounds code hc).1) heach
        ⟨code, hc, ih item hi hcode (hbounds code hc).2 hitem⟩
  | map entries ih =>
    cases room with
    | zero => exact fun _ => rfl
    | succ room =>
      obtain ⟨given, sorted, hperm, hsorted, hincrease, rfl⟩ := (encodes_map entries bytes).mp h
      obtain ⟨hbounds, hcount⟩ := map_codes_bounds hsorted hlen
      have heach : ∀ p ∈ sorted, Settles (decodeValue total room) p.1 .tooDeep ∧
          Settles (decodeValue total room) p.2 .tooDeep := by
        intro p hp
        obtain ⟨e, he, hkey, hvalue⟩ := Pointwise.exists_left hsorted hp
        have he := hperm.subset he
        obtain ⟨-, hkeyLen, hvalueLen⟩ := hbounds p hp
        constructor
        · exact settles_of_refuses hkey hkeyLen fun hdeep => (ih e he).1 hkey hkeyLen hdeep
        · exact settles_of_refuses hvalue hvalueLen fun hdeep => (ih e he).2 hvalue hvalueLen hdeep
      have hdeep : ∃ e ∈ entries, room ≤ e.1.depth ∨ room ≤ e.2.depth := by
        by_contra! hall
        exact absurd ((Value.depthEntries_le_iff entries room).mpr hall) (Nat.not_le.mpr hroom)
      obtain ⟨e, he, hentry⟩ := hdeep
      obtain ⟨p, hp, hkey, hvalue⟩ := Pointwise.exists_right hsorted (hperm.symm.subset he)
      obtain ⟨-, hkeyLen, hvalueLen⟩ := hbounds p hp
      refine refuses_map hcount (fun p hp => (hbounds p hp).1) hincrease heach ⟨p, hp, ?_⟩
      exact hentry.imp (fun hd => (ih e he).1 hkey hkeyLen hd)
        fun hd => (ih e he).2 hvalue hvalueLen hd

/-- An encoding within the allowed depth is decoded to a value that agrees with the encoded one. -/
theorem decode_reads {v : Value} {bytes : Bytes} (h : Encodes v bytes)
    (hlen : bytes.length < UInt64.size) (hdepth : v.depth ≤ maxDepth) :
    ∃ w, decode bytes = .ok w ∧ (w == v) = true := by
  obtain ⟨w, hw, hagree⟩ := decodeValue_reads bytes.length h hlen (Nat.lt_succ_of_le hdepth)
  have hread := hw []
  rw [List.append_nil] at hread
  exact ⟨w, (decode_eq_ok_iff bytes w).mpr hread, (Value.beq_iff w v).mpr hagree⟩

theorem decode_refuses {v : Value} {bytes : Bytes} (h : Encodes v bytes)
    (hlen : bytes.length < UInt64.size) (hdepth : maxDepth < v.depth) :
    decode bytes = .error .tooDeep := by
  have hrefuse := decodeValue_refuses bytes.length h hlen hdepth []
  rw [List.append_nil] at hrefuse
  rw [decode, hrefuse, error_bind]

end Conformance.Canonical
