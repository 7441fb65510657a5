import Mathlib.Tactic

/-! Standard base64 of byte strings: the padded encoder, and a lenient decoder that skips
characters outside the alphabet and stops at a complete padding. -/
namespace Base64

def symbol (n : ℕ) : Char :=
  if n < 26 then Char.ofNat (65+n)
  else if n < 52 then Char.ofNat (71+n)
  else if n < 62 then Char.ofNat (n-4)
  else if n = 62 then '+' else '/'

def value (c : Char) : Option ℕ :=
  if 'A' ≤ c ∧ c ≤ 'Z' then some (c.toNat-65)
  else if 'a' ≤ c ∧ c ≤ 'z' then some (c.toNat-71)
  else if '0' ≤ c ∧ c ≤ '9' then some (c.toNat+4)
  else if c = '+' then some 62
  else if c = '/' then some 63
  else none

/-- The six-bit groups of a byte string, the last one filled up with zeros. -/
def sextets : List UInt8 → List ℕ
  | [] => []
  | [a] => [a.toNat/4,a.toNat%4*16]
  | [a,b] => [a.toNat/4,a.toNat%4*16+b.toNat/16,b.toNat%16*4]
  | a::b::c::rest =>
    a.toNat/4::(a.toNat%4*16+b.toNat/16)::(b.toNat%16*4+c.toNat/64)::c.toNat%64::sextets rest

/-- The signs that fill the last group of four characters. -/
def padding (data : List UInt8) : List Char := List.replicate (2-(data.length+2)%3) '='

def b64encode (data : List UInt8) : List Char := (sextets data).map symbol ++ padding data

/-- The decoder's loop: the position in a group of four, the bits left over from the last
character and the padding signs read since. -/
def a2bBase64 : List Char → (quadPos leftchar pads : ℕ) → Option (List UInt8)
  | [], quadPos, _, _ => if quadPos = 0 then some [] else none
  | c::cs, quadPos, leftchar, pads =>
    if c = '=' then
      if 2 ≤ quadPos then
        if 4 ≤ quadPos+(pads+1) then some [] else a2bBase64 cs quadPos leftchar (pads+1)
      else a2bBase64 cs quadPos leftchar pads
    else match value c, quadPos with
      | none, _ => a2bBase64 cs quadPos leftchar pads
      | some v, 0 => a2bBase64 cs 1 v 0
      | some v, 1 => (a2bBase64 cs 2 (v%16) 0).map (UInt8.ofNat (leftchar*4+v/16)::·)
      | some v, 2 => (a2bBase64 cs 3 (v%4) 0).map (UInt8.ofNat (leftchar*16+v/4)::·)
      | some v, _ => (a2bBase64 cs 0 0 0).map (UInt8.ofNat (leftchar*64+v)::·)

def b64decode (text : List Char) : Option (List UInt8) := a2bBase64 text 0 0 0

theorem value_symbol : ∀ {n : ℕ}, n < 64 → value (symbol n) = some n := by
  decide

theorem symbol_ne_pad : ∀ {n : ℕ}, n < 64 → symbol n ≠ '=' := by
  decide

theorem symbol_eq_slash_iff : ∀ {n : ℕ}, n < 64 → (symbol n = '/' ↔ n = 63) := by
  decide

theorem sextets_lt {data : List UInt8} : ∀ n ∈ sextets data, n < 64 := by
  induction data using sextets.induct with
  | case1 => simp [sextets]
  | case2 a =>
    have := a.toNat_lt
    simp only [sextets,List.forall_mem_cons]
    exact ⟨by omega,by omega,by simp⟩
  | case3 a b =>
    have := a.toNat_lt
    have := b.toNat_lt
    simp only [sextets,List.forall_mem_cons]
    exact ⟨by omega,by omega,by omega,by simp⟩
  | case4 a b c rest ih =>
    have := a.toNat_lt
    have := b.toNat_lt
    have := c.toNat_lt
    simp only [sextets,List.forall_mem_cons]
    exact ⟨by omega,by omega,by omega,by omega,ih⟩

section Decoder

variable {n : ℕ} (h : n < 64) (cs : List Char) (leftchar pads : ℕ)
include h

theorem a2bBase64_zero :
    a2bBase64 (symbol n::cs) 0 leftchar pads = a2bBase64 cs 1 n 0 := by
  simp [a2bBase64,symbol_ne_pad h,value_symbol h]

theorem a2bBase64_one : a2bBase64 (symbol n::cs) 1 leftchar pads =
    (a2bBase64 cs 2 (n%16) 0).map (UInt8.ofNat (leftchar*4+n/16)::·) := by
  simp [a2bBase64,symbol_ne_pad h,value_symbol h]

theorem a2bBase64_two : a2bBase64 (symbol n::cs) 2 leftchar pads =
    (a2bBase64 cs 3 (n%4) 0).map (UInt8.ofNat (leftchar*16+n/4)::·) := by
  simp [a2bBase64,symbol_ne_pad h,value_symbol h]

theorem a2bBase64_three : a2bBase64 (symbol n::cs) 3 leftchar pads =
    (a2bBase64 cs 0 0 0).map (UInt8.ofNat (leftchar*64+n)::·) := by
  simp [a2bBase64,symbol_ne_pad h,value_symbol h]

end Decoder

theorem a2bBase64_onePad (leftchar : ℕ) : a2bBase64 ['='] 3 leftchar 0 = some [] := rfl

theorem a2bBase64_twoPads (leftchar : ℕ) : a2bBase64 ['=','='] 2 leftchar 0 = some [] := rfl

theorem ofNat_eq_of_toNat {n : ℕ} {a : UInt8} (h : n = a.toNat) : UInt8.ofNat n = a := by
  rw [h,UInt8.ofNat_toNat]

theorem b64decode_b64encode (data : List UInt8) : b64decode (b64encode data) = some data := by
  induction data using sextets.induct with
  | case1 => rfl
  | case2 a =>
    have ha := a.toNat_lt
    have h₀ : a.toNat/4 < 64 := by omega
    have h₁ : a.toNat%4*16 < 64 := by omega
    have h : UInt8.ofNat (a.toNat/4*4+a.toNat%4*16/16) = a := ofNat_eq_of_toNat (by omega)
    have hp : padding [a] = ['=','='] := by simp [padding,List.replicate]
    simp only [b64decode,b64encode,sextets,hp,List.map_cons,List.map_nil,List.cons_append,
      List.nil_append,a2bBase64_zero h₀,a2bBase64_one h₁,a2bBase64_twoPads,Option.map_some,h]
  | case3 a b =>
    have ha := a.toNat_lt
    have hb := b.toNat_lt
    have h₀ : a.toNat/4 < 64 := by omega
    have h₁ : a.toNat%4*16+b.toNat/16 < 64 := by omega
    have h₂ : b.toNat%16*4 < 64 := by omega
    have h : UInt8.ofNat (a.toNat/4*4+(a.toNat%4*16+b.toNat/16)/16) = a :=
      ofNat_eq_of_toNat (by omega)
    have h' : UInt8.ofNat ((a.toNat%4*16+b.toNat/16)%16*16+b.toNat%16*4/4) = b :=
      ofNat_eq_of_toNat (by omega)
    have hp : padding [a,b] = ['='] := by simp [padding]
    simp only [b64decode,b64encode,sextets,hp,List.map_cons,List.map_nil,List.cons_append,
      List.nil_append,a2bBase64_zero h₀,a2bBase64_one h₁,a2bBase64_two h₂,a2bBase64_onePad,
      Option.map_some,h,h']
  | case4 a b c rest ih =>
    have ha := a.toNat_lt
    have hb := b.toNat_lt
    have hc := c.toNat_lt
    have h₀ : a.toNat/4 < 64 := by omega
    have h₁ : a.toNat%4*16+b.toNat/16 < 64 := by omega
    have h₂ : b.toNat%16*4+c.toNat/64 < 64 := by omega
    have h₃ : c.toNat%64 < 64 := by omega
    have h : UInt8.ofNat (a.toNat/4*4+(a.toNat%4*16+b.toNat/16)/16) = a :=
      ofNat_eq_of_toNat (by omega)
    have h' : UInt8.ofNat ((a.toNat%4*16+b.toNat/16)%16*16+(b.toNat%16*4+c.toNat/64)/4) = b :=
      ofNat_eq_of_toNat (by omega)
    have h'' : UInt8.ofNat ((b.toNat%16*4+c.toNat/64)%4*64+c.toNat%64) = c :=
      ofNat_eq_of_toNat (by omega)
    have hp : padding (a::b::c::rest) = padding rest := by
      simp only [padding,List.length_cons]
      congr 2
      omega
    have ih : a2bBase64 ((sextets rest).map symbol ++ padding rest) 0 0 0 = some rest := ih
    simp only [b64decode,b64encode,sextets,hp,List.map_cons,List.cons_append,a2bBase64_zero h₀,
      a2bBase64_one h₁,a2bBase64_two h₂,a2bBase64_three h₃,ih,Option.map_some,h,h',h'']

/-- The loop emits no more bytes than the characters of the alphabet carry bits for: `quadPos-1`
bytes of the current group are out already. -/
theorem length_a2bBase64 {text : List Char} {quadPos leftchar pads : ℕ} {out : List UInt8}
    (hq : quadPos ≤ 3) (h : a2bBase64 text quadPos leftchar pads = some out) :
    4*(out.length+(quadPos-1)) ≤ 3*(quadPos+text.countP (fun c => (value c).isSome)) := by
  induction text generalizing quadPos leftchar pads out with
  | nil =>
    simp only [a2bBase64] at h
    split at h
    · cases h
      simp
      omega
    · cases h
  | cons c cs ih =>
    have hcount : (c::cs).countP (fun c => (value c).isSome) =
        cs.countP (fun c => (value c).isSome) + if (value c).isSome then 1 else 0 :=
      List.countP_cons
    by_cases hc : c = '='
    · simp only [a2bBase64,if_pos hc] at h
      split at h
      · split at h
        · cases h
          simp only [List.length_nil]
          omega
        · have := ih hq h
          omega
      · have := ih hq h
        omega
    · cases hv : value c with
      | none =>
        simp only [a2bBase64,if_neg hc,hv] at h
        have := ih hq h
        omega
      | some v =>
        rw [hcount]
        simp only [a2bBase64,if_neg hc,hv] at h
        rcases show quadPos = 0 ∨ quadPos = 1 ∨ quadPos = 2 ∨ quadPos = 3 by omega with
          rfl | rfl | rfl | rfl
        · have := ih (by omega) h
          simp only [hv,Option.isSome_some,if_true]
          omega
        all_goals
          obtain ⟨rest,hrest,rfl⟩ := Option.map_eq_some_iff.mp h
          have := ih (by omega) hrest
          simp only [hv,Option.isSome_some,if_true,List.length_cons]
          omega

theorem length_b64decode {text : List Char} {out : List UInt8} (h : b64decode text = some out) :
    4*out.length ≤ 3*text.countP (fun c => (value c).isSome) := by
  have := length_a2bBase64 (by norm_num) h
  omega

theorem length_sextets (data : List UInt8) : 3*(sextets data).length ≤ 4*data.length+2 := by
  induction data using sextets.induct with
  | case1 => simp [sextets]
  | case2 => simp [sextets]
  | case3 => simp [sextets]
  | case4 a b c rest ih =>
    simp only [sextets,List.length_cons]
    omega

theorem length_b64encode (data : List UInt8) : (b64encode data).length % 4 = 0 := by
  induction data using sextets.induct with
  | case1 => rfl
  | case2 => simp [b64encode,sextets,padding]
  | case3 => simp [b64encode,sextets,padding]
  | case4 a b c rest ih =>
    simp only [b64encode,sextets,padding,List.length_append,List.length_map,List.length_replicate,
      List.length_cons] at ih ⊢
    omega

theorem b64encode_eq_nil_iff {data : List UInt8} : b64encode data = [] ↔ data = [] := by
  constructor
  · intro h
    have := b64decode_b64encode data
    rw [h] at this
    exact (Option.some.inj this).symm
  · rintro rfl
    rfl

theorem mem_b64encode {data : List UInt8} {c : Char} (h : c ∈ b64encode data) :
    (∃ n ∈ sextets data, symbol n = c) ∨ c = '=' := by
  rcases List.mem_append.mp h with h | h
  · exact Or.inl (List.mem_map.mp h)
  · exact Or.inr (List.mem_replicate.mp h).2

/-- A slash stands for a group of six ones. -/
theorem slash_mem_b64encode_iff {data : List UInt8} :
    '/' ∈ b64encode data ↔ 63 ∈ sextets data := by
  constructor
  · intro h
    rcases mem_b64encode h with ⟨n,hn,hs⟩ | h
    · rwa [← (symbol_eq_slash_iff (sextets_lt n hn)).mp hs]
    · cases h
  · intro h
    exact List.mem_append.mpr (Or.inl (List.mem_map.mpr ⟨63,h,rfl⟩))

theorem countP_b64encode (data : List UInt8) :
    (b64encode data).countP (fun c => (value c).isSome) = (sextets data).length := by
  have hs : ((sextets data).map symbol).countP (fun c => (value c).isSome) =
      (sextets data).length := by
    rw [← List.length_map symbol]
    apply List.countP_eq_length.mpr
    intro c hc
    obtain ⟨n,hn,rfl⟩ := List.mem_map.mp hc
    rw [value_symbol (sextets_lt n hn)]
    rfl
  have hp : (padding data).countP (fun c => (value c).isSome) = 0 := by
    apply List.countP_eq_zero.mpr
    intro c hc
    rw [(List.mem_replicate.mp hc).2]
    decide
  rw [b64encode,List.countP_append,hs,hp,Nat.add_zero]

/-- What a text that misses one of the slashes of an encoding decodes to is shorter than the
data. -/
theorem length_lt_of_slash_removed {data out : List UInt8} {text : List Char}
    (hsub : text.Sublist (b64encode data)) (hno : '/' ∉ text) (hslash : '/' ∈ b64encode data)
    (h : b64decode text = some out) : out.length < data.length := by
  have hcount : text.countP (fun c => (value c).isSome) < (sextets data).length := by
    have hkept : text.countP (fun c => (value c).isSome) ≤
        ((b64encode data).filter (fun c => c != '/')).countP (fun c => (value c).isSome) := by
      have : text.filter (fun c => c != '/') = text :=
        List.filter_eq_self.mpr fun c hc => bne_iff_ne.mpr fun e => hno (e ▸ hc)
      rw [← this]
      exact (hsub.filter _).countP_le
    have hlost : 0 < ((b64encode data).filter (fun c => !(c != '/'))).countP
        (fun c => (value c).isSome) :=
      List.countP_pos_iff.mpr ⟨'/',List.mem_filter.mpr ⟨hslash,rfl⟩,rfl⟩
    have hsum := List.countP_eq_countP_filter_add (b64encode data)
      (fun c => (value c).isSome) (fun c => c != '/')
    rw [countP_b64encode] at hsum
    omega
  have := length_b64decode h
  have := length_sextets data
  omega

end Base64
