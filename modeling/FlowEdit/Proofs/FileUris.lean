import Mathlib.Data.List.TakeWhile
import FlowEdit.Session.Settings

/-!
A path and the file URI that encodes it. The path is written as UTF-8, and each byte that is not
kept as it is becomes a `%` and two hexadecimal digits (`Percent.Spells`). Such a text has nothing
in it that ends a path or is cleaned away, so it is the path of the URI (`Uri.path_ofFile`).
Decoding gives its bytes back, and the bytes of a character give the character back
(`Percent.join_utf8EncodeChar`). Main statement: `Environment.handles_fileUri`.
-/

namespace FlowEdit

open Text

namespace Percent

/-! ## Bytes of a character -/

theorem toNat_ofNat_of_lt {n : Nat} (h : n < 256) : (UInt8.ofNat n).toNat = n := by
  rw [UInt8.toNat_ofNat']
  omega

theorem join_ascii {n : Nat} (h : n < 0x80) (ps : List Piece) :
    join .start (.byte (UInt8.ofNat n) :: ps) = Char.ofNat n :: join .start ps := by
  have hn : (UInt8.ofNat n).toNat = n := toNat_ofNat_of_lt (by omega)
  simp [join, Utf8.State.step, Utf8.State.first, hn, h]

theorem join_lead {n : Nat} {s : Utf8.State} (h : Utf8.lead? n = some s) (hn : n < 256)
    (ps : List Piece) : join .start (.byte (UInt8.ofNat n) :: ps) = join s ps := by
  have hascii : ¬ n < 0x80 := by
    intro hlt
    simp [Utf8.lead?, show n < 0xc2 by omega] at h
  simp [join, Utf8.State.step, Utf8.State.first, toNat_ofNat_of_lt hn, hascii, h]

/-- A byte that goes on with a character adds six bits to its number. -/
theorem join_trail {value more low high k : Nat} (hk : k < 64) (hlow : low ≤ k + 128)
    (hhigh : k + 128 ≤ high) (ps : List Piece) :
    join (.inside value more low high) (.byte (UInt8.ofNat (k + 128)) :: ps) =
      if more ≤ 1 then Char.ofNat (value * 64 + k) :: join .start ps
      else join (.inside (value * 64 + k) (more - 1) 0x80 0xbf) ps := by
  have hn : (UInt8.ofNat (k + 128)).toNat = k + 128 := toNat_ofNat_of_lt (by omega)
  simp only [join, Utf8.State.step, hn, hlow, hhigh, and_self, if_true, Nat.add_sub_cancel]
  split <;> rfl

theorem join_two_bytes {n : Nat} (h : 0x80 ≤ n) (h' : n < 0x800) (ps : List Piece) :
    join .start (.byte (UInt8.ofNat (n / 64 % 32 + 192)) ::
      .byte (UInt8.ofNat (n % 64 + 128)) :: ps) = Char.ofNat n :: join .start ps := by
  have hlead : Utf8.lead? (n / 64 % 32 + 192) = some (.inside (n / 64) 1 0x80 0xbf) := by
    have hbits : n / 64 % 32 = n / 64 := by omega
    unfold Utf8.lead?
    rw [if_neg (by omega), if_pos (by omega), Nat.add_sub_cancel, hbits]
  have hvalue : n / 64 * 64 + n % 64 = n := by omega
  rw [join_lead hlead (by omega), join_trail (by omega) (by omega) (by omega),
    if_pos (Nat.le_refl 1), hvalue]

/-- The second byte is within the bounds, since `n` is not the number of a surrogate. -/
theorem join_three_bytes {n : Nat} (h : 0x800 ≤ n) (h' : n < 0x10000)
    (hn : n < 0xd800 ∨ 0xdfff < n) (ps : List Piece) :
    join .start (.byte (UInt8.ofNat (n / 4096 % 16 + 224)) ::
      .byte (UInt8.ofNat (n / 64 % 64 + 128)) :: .byte (UInt8.ofNat (n % 64 + 128)) :: ps) =
        Char.ofNat n :: join .start ps := by
  have hlead : Utf8.lead? (n / 4096 % 16 + 224) = some (.inside (n / 4096) 2
      (if n / 4096 = 0 then 0xa0 else 0x80) (if n / 4096 = 13 then 0x9f else 0xbf)) := by
    have hbits : n / 4096 % 16 = n / 4096 := by omega
    unfold Utf8.lead?
    rw [if_neg (by omega), if_neg (by omega), if_pos (by omega), Nat.add_sub_cancel, hbits]
    congr 3 <;> simp
  have hvalue : (n / 4096 * 64 + n / 64 % 64) * 64 + n % 64 = n := by omega
  rw [join_lead hlead (by omega),
    join_trail (by omega) (by split <;> omega) (by split <;> omega), if_neg (by omega),
    join_trail (by omega) (by omega) (by omega), if_pos (Nat.le_refl 1), hvalue]

/-- The second byte is within the bounds, since `n` is not past the last character. -/
theorem join_four_bytes {n : Nat} (h : 0x10000 ≤ n) (hn : n < 0x110000) (ps : List Piece) :
    join .start (.byte (UInt8.ofNat (n / 262144 % 8 + 240)) ::
      .byte (UInt8.ofNat (n / 4096 % 64 + 128)) :: .byte (UInt8.ofNat (n / 64 % 64 + 128)) ::
        .byte (UInt8.ofNat (n % 64 + 128)) :: ps) = Char.ofNat n :: join .start ps := by
  have hlead : Utf8.lead? (n / 262144 % 8 + 240) = some (.inside (n / 262144) 3
      (if n / 262144 = 0 then 0x90 else 0x80) (if n / 262144 = 4 then 0x8f else 0xbf)) := by
    have hbits : n / 262144 % 8 = n / 262144 := by omega
    unfold Utf8.lead?
    rw [if_neg (by omega), if_neg (by omega), if_neg (by omega), if_pos (by omega),
      Nat.add_sub_cancel, hbits]
    congr 3 <;> simp
  have hvalue : ((n / 262144 * 64 + n / 4096 % 64) * 64 + n / 64 % 64) * 64 + n % 64 = n := by
    omega
  rw [join_lead hlead (by omega),
    join_trail (by omega) (by split <;> omega) (by split <;> omega), if_neg (by omega),
    join_trail (by omega) (by omega) (by omega), if_neg (by omega),
    join_trail (by omega) (by omega) (by omega), if_pos (Nat.le_refl 1), hvalue]

/-- The bytes of a character are read as the character. -/
theorem join_utf8EncodeChar (c : Char) (ps : List Piece) :
    join .start ((String.utf8EncodeChar c).map .byte ++ ps) = c :: join .start ps := by
  have hc : Char.ofNat c.val.toNat = c := Char.ofNat_toNat c
  have hvalid : c.val.toNat < 0xd800 ∨ 0xdfff < c.val.toNat ∧ c.val.toNat < 0x110000 := c.valid
  unfold String.utf8EncodeChar
  generalize c.val.toNat = n at hc hvalid
  rw [← hc]
  dsimp only
  split
  · exact join_ascii (by omega) ps
  · split
    · exact join_two_bytes (by omega) (by omega) ps
    · split
      · exact join_three_bytes (by omega) (by omega) (by omega) ps
      · exact join_four_bytes (by omega) (by omega) ps

/-- The UTF-8 bytes of a text. -/
def bytes (t : Text) : List UInt8 := t.flatMap String.utf8EncodeChar

theorem join_bytes (t : Text) : join .start ((bytes t).map .byte) = t := by
  induction t with
  | nil => rfl
  | cons c t ih =>
    have hcons : (bytes (c :: t)).map Piece.byte =
        (String.utf8EncodeChar c).map .byte ++ (bytes t).map .byte := by
      simp [bytes]
    rw [hcons, join_utf8EncodeChar, ih]

/-! ## Percent encoding -/

/-- ASCII letters and digits, and the marks that need no encoding in a path. -/
def isKept (c : Char) : Bool := c.isAlphanum || "_.-~/".toList.contains c

/-- The text is a percent encoding of the bytes: a byte that is kept stands for itself, and any
other is a `%` and two hexadecimal digits, in upper or lower case. -/
inductive Spells : Text → List UInt8 → Prop
  | nil : Spells [] []
  | kept {b : UInt8} {u : Text} {bs : List UInt8} (h : isKept (Char.ofNat b.toNat) = true)
      (rest : Spells u bs) : Spells (Char.ofNat b.toNat :: u) (b :: bs)
  | coded {b : UInt8} {high low : Char} {u : Text} {bs : List UInt8}
      (h : isKept (Char.ofNat b.toNat) = false) (hhigh : isHexDigit high = true)
      (hlow : isHexDigit low = true) (hb : b.toNat = 16 * digitValue high + digitValue low)
      (rest : Spells u bs) : Spells ('%' :: high :: low :: u) (b :: bs)

def upperHexDigit (n : Nat) : Char := (Nat.digitChar n).toUpper

def encodeByte (b : UInt8) : Text :=
  if isKept (Char.ofNat b.toNat) then [Char.ofNat b.toNat]
  else ['%', upperHexDigit (b.toNat / 16), upperHexDigit (b.toNat % 16)]

/-- The percent encoding of a text, with digits in upper case. -/
def encode (t : Text) : Text := (bytes t).flatMap encodeByte

theorem isHexDigit_upperHexDigit {n : Nat} (h : n < 16) : isHexDigit (upperHexDigit n) = true := by
  revert n
  decide

theorem digitValue_upperHexDigit {n : Nat} (h : n < 16) : digitValue (upperHexDigit n) = n := by
  revert n
  decide

theorem spells_flatMap_encodeByte (bs : List UInt8) : Spells (bs.flatMap encodeByte) bs := by
  induction bs with
  | nil => exact .nil
  | cons b bs ih =>
    have hb : b.toNat < 256 := b.toNat_lt
    rw [List.flatMap_cons, encodeByte]
    split
    next h => exact .kept h ih
    next h =>
      apply Spells.coded (by simpa using h) (isHexDigit_upperHexDigit (by omega))
        (isHexDigit_upperHexDigit (by omega)) _ ih
      rw [digitValue_upperHexDigit (by omega), digitValue_upperHexDigit (by omega)]
      omega

/-- Every text has a percent encoding. -/
theorem spells_encode (t : Text) : Spells (encode t) (bytes t) :=
  spells_flatMap_encodeByte (bytes t)

theorem pieces_cons {c : Char} (h : c ≠ '%') (t : Text) :
    pieces (c :: t) = Piece.ofChar c :: pieces t := by
  rw [pieces]
  rintro _ _ _ rfl
  exact absurd rfl h

/-- What is kept is ASCII. -/
theorem toNat_lt_of_isKept {c : Char} (h : isKept c = true) : c.toNat < 0x80 := by
  have hmarks : "_.-~/".toList.all (·.toNat < 0x80) = true := by decide
  rcases Bool.or_eq_true_iff.mp h with hletter | hmark
  · exact toNat_lt_of_isAlphanum hletter
  · simpa using List.all_eq_true.mp hmarks c (List.contains_iff_mem.mp hmark)

theorem ofChar_of_isKept {b : UInt8} (h : isKept (Char.ofNat b.toNat) = true) :
    Piece.ofChar (Char.ofNat b.toNat) = .byte b := by
  have hlt := toNat_lt_of_isKept h
  have hb : (Char.ofNat b.toNat).toNat = b.toNat := by
    have hvalid : b.toNat.isValidChar := .inl (by have := b.toNat_lt; omega)
    rw [Char.ofNat, dif_pos hvalid]
    rfl
  rw [Piece.ofChar, if_pos hlt, hb, UInt8.ofNat_toNat]

theorem Spells.pieces_eq {u : Text} {bs : List UInt8} (h : Spells u bs) :
    pieces u = bs.map .byte := by
  induction h with
  | nil => rfl
  | @kept b u bs h _ ih =>
    have hne : Char.ofNat b.toNat ≠ '%' := by
      intro heq
      rw [heq] at h
      exact absurd h (by decide)
    rw [pieces_cons hne, ofChar_of_isKept h, ih, List.map_cons]
  | @coded b high low u bs _ hhigh hlow hb _ ih =>
    rw [pieces, if_pos (by simp [hhigh, hlow]), ih, ← hb, UInt8.ofNat_toNat, List.map_cons]

theorem Spells.decode_eq {u t : Text} (h : Spells u (bytes t)) : decode u = t := by
  rw [decode, h.pieces_eq, join_bytes]

/-! ## The path of a URI -/

theorem isAlphanum_of_isHexDigit {c : Char} (h : isHexDigit c = true) : c.isAlphanum = true := by
  simp only [isHexDigit, Bool.or_eq_true, Bool.and_eq_true, decide_eq_true_eq] at h
  rcases h with (hdigit | ⟨hfrom, hto⟩) | ⟨hfrom, hto⟩
  · exact Bool.or_eq_true_iff.mpr (.inr hdigit)
  · have hz : c ≤ 'z' := UInt32.le_trans hto (by decide)
    have hlower : c.isLower = true :=
      Bool.and_eq_true_iff.mpr ⟨decide_eq_true hfrom, decide_eq_true hz⟩
    exact Bool.or_eq_true_iff.mpr (.inl (Bool.or_eq_true_iff.mpr (.inr hlower)))
  · have hz : c ≤ 'Z' := UInt32.le_trans hto (by decide)
    have hupper : c.isUpper = true := decide_eq_true ⟨hfrom, hz⟩
    exact Bool.or_eq_true_iff.mpr (.inl (Bool.or_eq_true_iff.mpr (.inl hupper)))

/-- A percent encoding has only characters in it that are kept, and the `%`. -/
theorem Spells.isKept_of_mem {u : Text} {bs : List UInt8} (h : Spells u bs) {c : Char}
    (hc : c ∈ u) : isKept c = true ∨ c = '%' := by
  induction h with
  | nil => cases hc
  | kept h _ ih =>
    rcases List.mem_cons.mp hc with rfl | hc
    · exact .inl h
    · exact ih hc
  | coded _ hhigh hlow _ _ ih =>
    simp only [List.mem_cons] at hc
    rcases hc with rfl | rfl | rfl | hc
    · exact .inr rfl
    · exact .inl (Bool.or_eq_true_iff.mpr (.inl (isAlphanum_of_isHexDigit hhigh)))
    · exact .inl (Bool.or_eq_true_iff.mpr (.inl (isAlphanum_of_isHexDigit hlow)))
    · exact ih hc

theorem Spells.ne_of_mem {u : Text} {bs : List UInt8} (h : Spells u bs) {c d : Char} (hc : c ∈ u)
    (hd : isKept d = false ∧ d ≠ '%') : c ≠ d := by
  rintro rfl
  rcases h.isKept_of_mem hc with hkept | hpercent
  · simp [hd.1] at hkept
  · exact hd.2 hpercent

/-- The first character of the encoding is the `/` of the path. -/
theorem Spells.head_eq {u p : Text} (h : Spells u (bytes ('/' :: p))) : ∃ u', u = '/' :: u' := by
  have hbytes : bytes ('/' :: p) = 47 :: bytes p := rfl
  rw [hbytes] at h
  cases h with
  | kept _ _ => exact ⟨_, rfl⟩
  | coded hcoded => exact absurd hcoded (by decide)

end Percent

namespace Uri

open Percent

/-- The URI of a file: its path, percent-encoded, behind the scheme and an empty authority. -/
def ofFile (u : Text) : Text := "file://".toList ++ u

theorem ofFile_eq (u : Text) :
    ofFile u = 'f' :: 'i' :: 'l' :: 'e' :: ':' :: '/' :: '/' :: u := rfl

theorem clean_ofFile {u : Text} {bs : List UInt8} (h : Spells u bs) :
    clean (ofFile u) = ofFile u := by
  have hkeep : ∀ c ∈ u, c ≠ '\t' ∧ c ≠ '\r' ∧ c ≠ '\n' := fun c hc =>
    ⟨h.ne_of_mem hc (by decide), h.ne_of_mem hc (by decide), h.ne_of_mem hc (by decide)⟩
  rw [clean, ofFile_eq, List.dropWhile_cons_of_neg (by decide)]
  simpa [isTabOrLineEnd] using hkeep

theorem splitScheme_ofFile (u : Text) :
    splitScheme (ofFile u) = (['f', 'i', 'l', 'e'], '/' :: '/' :: u) := by
  simp [splitScheme, ofFile_eq, upToChar, isSchemeChar]

theorem upToChar_eq_self {u : Text} {d : Char} (h : ∀ c ∈ u, c ≠ d) : u.upToChar d = u := by
  rw [upToChar, List.takeWhile_eq_self_iff]
  simpa using h

/-- The path of the URI is the encoded path. -/
theorem path_ofFile {u p : Text} (h : Spells u (bytes ('/' :: p))) : path (ofFile u) = .ok u := by
  have hfragment : u.upToChar '#' = u := upToChar_eq_self fun c hc => h.ne_of_mem hc (by decide)
  have hquery : u.upToChar '?' = u := upToChar_eq_self fun c hc => h.ne_of_mem hc (by decide)
  have hauthority : dropAuthority ('/' :: '/' :: u) = .ok u := by
    obtain ⟨u', rfl⟩ := h.head_eq
    rfl
  have hscheme : parameterSchemes.contains ['f', 'i', 'l', 'e'] = false := by decide
  unfold path
  rw [clean_ofFile h, splitScheme_ofFile]
  simp only [hauthority, bind, Except.bind, hfragment, hquery, hscheme]
  rfl

end Uri

/-! ## Files to be handled -/

namespace Environment

theorem handles_of_not_isInfix (env : Environment) {p : Text} (h : ¬ "://".toList <:+: p) :
    env.handles p = .ok (env.extensions.any (·.isSuffixOf p.lower)) := by
  have hplain : hasInfix "://".toList p = false := by
    rw [Bool.eq_false_iff]
    exact mt hasInfix_iff.mp h
  unfold handles
  rw [hplain]
  rfl

theorem handles_of_isInfix (env : Environment) {u p : Text} (h : "://".toList <:+: u)
    (hpath : Percent.decode <$> Uri.path u = .ok p) :
    env.handles u = .ok (env.extensions.any (·.isSuffixOf p.lower)) := by
  unfold handles
  rw [hasInfix_iff.mpr h, if_pos rfl, hpath]
  rfl

/-- A file URI and the path that it encodes are handled alike, whatever the extensions are. -/
theorem handles_fileUri (env : Environment) {p u : Text} (hroot : p.head? = some '/')
    (hplain : ¬ "://".toList <:+: p) (hu : Percent.Spells u (Percent.bytes p)) :
    ∃ handled, env.handles (Uri.ofFile u) = .ok handled ∧ env.handles p = .ok handled := by
  obtain ⟨rest, rfl⟩ : ∃ rest, p = '/' :: rest := by
    cases p with
    | nil => cases hroot
    | cons c rest => exact ⟨rest, by rw [Option.some.inj hroot]⟩
  have hpath : Percent.decode <$> Uri.path (Uri.ofFile u) = .ok ('/' :: rest) := by
    rw [Uri.path_ofFile hu]
    exact congrArg Except.ok hu.decode_eq
  have hscheme : "://".toList <:+: Uri.ofFile u := ⟨['f', 'i', 'l', 'e'], u, rfl⟩
  exact ⟨_, env.handles_of_isInfix hscheme hpath, env.handles_of_not_isInfix hplain⟩

/-- A path with marks that would end it in a URI, a `%`, a letter outside ASCII and a character
outside the basic plane. -/
theorem handles_fileUri_reserved_marks :
    let p : Text := "/é%41#😀?;.CBL".toList
    let u : Text := "/%C3%A9%2541%23%F0%9F%98%80%3F%3B.CBL".toList
    Percent.encode p = u ∧ handles {} (Uri.ofFile u) = .ok true ∧ handles {} p = .ok true := by
  intro p u
  have hencode : Percent.encode p = u := by decide +kernel
  have hu : Percent.Spells u (Percent.bytes p) := by
    rw [← hencode]
    exact Percent.spells_encode p
  have hplain : ¬ "://".toList <:+: p := by decide +kernel
  obtain ⟨handled, huri, hpath⟩ := handles_fileUri {} (by decide +kernel) hplain hu
  have htrue : handled = true := by
    rw [handles_of_not_isInfix {} hplain] at hpath
    rw [← Except.ok.inj hpath]
    decide +kernel
  rw [htrue] at huri hpath
  exact ⟨hencode, huri, hpath⟩

end Environment

end FlowEdit
