import Mathlib.Tactic

/-! Row keys and stored ids: `serializers.py`.
Ids are `uint64` values, written as naturals; keys are byte strings. -/
namespace KvdbClient

abbrev Bytes := List UInt8
abbrev Text := List Char

/-- Membership in a list of keys is decided with it. -/
instance : LawfulBEq Bytes := inferInstance

/-- `str.encode("utf-8")`. -/
def encodeUtf8 (t : Text) : Bytes := t.flatMap String.utf8EncodeChar

theorem encodeUtf8_injective : Function.Injective encodeUtf8 := by
  intro s t h
  have hb : (String.ofList s).toByteArray = (String.ofList t).toByteArray := by
    simp only [String.toByteArray_ofList,List.utf8Encode]
    exact congrArg List.toByteArray h
  exact String.ofList_injective (String.toByteArray_inj.mp hb)

/-- `bytes.decode()` of an ASCII byte string, as every attribute key is. -/
def decodeAscii (b : Bytes) : Text := b.map fun x => Char.ofNat x.toNat

/-- `"%.20d" % node_id`: the decimal digits, zero-padded to at least twenty. -/
def padNodeId (nodeId : ℕ) : Text :=
  List.replicate (20 - (Nat.toDigits 10 nodeId).length) '0' ++ Nat.toDigits 10 nodeId

def serializeKey (key : Text) : Bytes := encodeUtf8 key

def serializeUint64 (nodeId : ℕ) (counter fakeEdges : Bool) : Bytes :=
  if counter then serializeKey ('i' :: padNodeId nodeId)
  else if fakeEdges then serializeKey ('f' :: padNodeId nodeId)
  else serializeKey (padNodeId nodeId)

/-- Reading the padded digits back gives the id: padding adds leading zeros only. -/
theorem ofDigitChars_padNodeId (n : ℕ) : Nat.ofDigitChars 10 (padNodeId n) 0 = n := by
  simp [padNodeId,Nat.ofDigitChars_append]

theorem padNodeId_injective : Function.Injective padNodeId := by
  intro m n h
  rw [← ofDigitChars_padNodeId m,h,ofDigitChars_padNodeId]

theorem serializeKey_injective : Function.Injective serializeKey := encodeUtf8_injective

theorem serializeUint64_injective (counter fakeEdges : Bool) :
    Function.Injective fun n => serializeUint64 n counter fakeEdges := by
  intro m n h
  simp only [serializeUint64] at h
  apply padNodeId_injective
  split at h
  · exact (List.cons.inj (serializeKey_injective h)).2
  · split at h
    · exact (List.cons.inj (serializeKey_injective h)).2
    · exact serializeKey_injective h

/-- Below `10 ^ 20`, so for every `uint64`, a padded id has exactly twenty characters. -/
theorem padNodeId_length {n : ℕ} (h : n < 10 ^ 20) : (padNodeId n).length = 20 := by
  have hd : (Nat.toDigits 10 n).length ≤ 20 :=
    (Nat.length_toDigits_le_iff (by norm_num) (by norm_num)).mpr h
  simp only [padNodeId,List.length_append,List.length_replicate]
  omega

theorem encodeUtf8_cons (c : Char) (t : Text) :
    encodeUtf8 (c :: t) = String.utf8EncodeChar c ++ encodeUtf8 t :=
  List.flatMap_cons

theorem encodeUtf8_of_ascii {t : Text} (h : ∀ c ∈ t, c.toNat < 128) :
    encodeUtf8 t = t.map fun c => c.toNat.toUInt8 := by
  induction t with
  | nil => rfl
  | cons c t ih =>
    have hc : c.val.toNat ≤ 127 := Nat.le_of_lt_succ (h c List.mem_cons_self)
    rw [encodeUtf8_cons,ih fun x hx => h x (List.mem_cons_of_mem _ hx),String.utf8EncodeChar,
      if_pos hc]
    rfl

theorem decodeAscii_encodeUtf8 {t : Text} (h : ∀ c ∈ t, c.toNat < 128) :
    decodeAscii (encodeUtf8 t) = t := by
  rw [encodeUtf8_of_ascii h,decodeAscii,List.map_map]
  refine (List.map_congr_left fun c hc => ?_).trans t.map_id
  have hn : c.toNat.toUInt8.toNat = c.toNat := by
    rw [Nat.toUInt8,UInt8.toNat_ofNat']
    exact Nat.mod_eq_of_lt ((h c hc).trans (by norm_num))
  rw [Function.comp_apply,hn,Char.ofNat_toNat,id]

/-- Encoded text is what `bytes.decode()` accepts. -/
theorem isValidUTF8_encodeUtf8 (t : Text) : (encodeUtf8 t).toByteArray.IsValidUTF8 :=
  ByteArray.isValidUTF8_utf8Encode

/-- `bytes.decode("utf-8")`. -/
def decodeUtf8 (b : Bytes) : Option Text := (String.fromUTF8? b.toByteArray).map String.toList

@[simp] theorem decodeUtf8_encodeUtf8 (t : Text) : decodeUtf8 (encodeUtf8 t) = some t := by
  have hstring : String.fromUTF8 (encodeUtf8 t).toByteArray (isValidUTF8_encodeUtf8 t) =
      String.ofList t := rfl
  rw [decodeUtf8,String.fromUTF8?,dif_pos (isValidUTF8_encodeUtf8 t),Option.map_some,hstring,
    String.toList_ofList]

theorem encodeUtf8_of_decodeUtf8 {b : Bytes} {t : Text} (h : decodeUtf8 b = some t) :
    encodeUtf8 t = b := by
  obtain ⟨s,hs,rfl⟩ := Option.map_eq_some_iff.mp h
  rw [String.fromUTF8?] at hs
  split at hs
  next hvalid =>
    obtain rfl := Option.some.inj hs
    have hbytes : (String.ofList (String.fromUTF8 b.toByteArray hvalid).toList).toByteArray =
        b.toByteArray := by rw [String.ofList_toList]; rfl
    rw [String.toByteArray_ofList,List.utf8Encode] at hbytes
    exact List.toByteArray_inj.mp hbytes
  next => cases hs

theorem isDigit_of_mem_padNodeId {n : ℕ} {c : Char} (h : c ∈ padNodeId n) : c.isDigit = true := by
  rcases List.mem_append.mp h with h | h
  · rw [(List.mem_replicate.mp h).2]
    rfl
  · exact Nat.isDigit_of_mem_toDigits (by norm_num) (by norm_num) h

end KvdbClient
