import Mathlib.Data.List.Basic
import SimpleBinary.Schema.Basic
import SimpleBinary.Text.Utf8

namespace SimpleBinary

theorem utf8_ofList (characters : List Char) :
    utf8 (String.ofList characters) = characters.flatMap String.utf8EncodeChar := by
  simp [utf8, String.toUTF8, List.utf8Encode]

namespace Utf8

theorem scan_first (byte : UInt8) (rest : Bytes) :
    scan none (byte :: rest) =
      match first byte with
      | .char c => some c :: scan none rest
      | .more begun => scan (some begun) rest
      | .invalid => none :: scan none rest := rfl

theorem scan_continue (begun : Partial) (byte : UInt8) (rest : Bytes)
    (h : none ∉ scan (some begun) (byte :: rest)) :
    begun.low ≤ byte.toNat ∧ byte.toNat ≤ begun.high ∧
      scan (some begun) (byte :: rest) =
        if begun.owed = 1 then
          some (Char.ofNat (begun.value * 64 + (byte.toNat - 0x80))) :: scan none rest
        else
          scan (some ⟨begun.value * 64 + (byte.toNat - 0x80), begun.owed - 1, 0x80, 0xbf⟩)
            rest := by
  rw [scan] at h ⊢
  unfold continue? at h ⊢
  by_cases hrange : begun.low ≤ byte.toNat ∧ byte.toNat ≤ begun.high
  · refine ⟨hrange.1, hrange.2, ?_⟩
    rw [if_pos hrange]
    dsimp only
    by_cases howed : begun.owed = 1
    · rw [if_pos howed, if_pos howed]
    · rw [if_neg howed, if_neg howed]
  · rw [if_neg hrange] at h
    simp at h

def valueOf (value : Nat) (tail : Bytes) : Nat :=
  tail.foldl (fun value byte => value * 64 + (byte.toNat - 0x80)) value

theorem scan_begun (n : Nat) :
    ∀ (begun : Partial) (bytes : Bytes), begun.owed = n + 1 → none ∉ scan (some begun) bytes →
      ∃ tail rest, bytes = tail ++ rest ∧ tail.length = n + 1 ∧
        (∀ byte ∈ tail.head?, begun.low ≤ byte.toNat ∧ byte.toNat ≤ begun.high) ∧
        (∀ byte ∈ tail.tail, 0x80 ≤ byte.toNat ∧ byte.toNat ≤ 0xbf) ∧
        scan (some begun) bytes =
          some (Char.ofNat (valueOf begun.value tail)) :: scan none rest := by
  induction n with
  | zero =>
    intro begun bytes howed h
    cases bytes with
    | nil => simp [scan] at h
    | cons byte rest =>
      obtain ⟨hlow, hhigh, hscan⟩ := scan_continue begun byte rest h
      rw [if_pos howed] at hscan
      exact ⟨[byte], rest, rfl, rfl, by rintro b ⟨⟩; exact ⟨hlow, hhigh⟩, by simp, hscan⟩
  | succ n ih =>
    intro begun bytes howed h
    cases bytes with
    | nil => simp [scan] at h
    | cons byte rest =>
      obtain ⟨hlow, hhigh, hscan⟩ := scan_continue begun byte rest h
      rw [if_neg (by omega)] at hscan
      rw [hscan] at h ⊢
      obtain ⟨tail, rest', rfl, hlength, hhead, htail, hrest⟩ := ih _ _ (by simp [howed]) h
      have hvalue : valueOf begun.value (byte :: tail) =
        valueOf (begun.value * 64 + (byte.toNat - 0x80)) tail := by
        rw [valueOf, List.foldl_cons, valueOf]
      have hfirst : ∀ b ∈ (byte :: tail).head?, begun.low ≤ b.toNat ∧ b.toNat ≤ begun.high := by
        intro b hb
        cases hb
        exact ⟨hlow, hhigh⟩
      refine ⟨byte :: tail, rest', rfl, by simp [hlength], hfirst, ?_, by rw [hvalue]; exact hrest⟩
      intro b hb
      -- Behind the first continuation byte the range is that of all others.
      cases tail with
      | nil => cases hlength
      | cons head tail =>
        rcases List.mem_cons.mp hb with rfl | hb
        · exact hhead b rfl
        · exact htail b hb

theorem utf8EncodeChar_ofNat {n : Nat} (h : n.isValidChar) :
    String.utf8EncodeChar (Char.ofNat n) =
      if n ≤ 127 then [UInt8.ofNat n]
      else if n ≤ 2047 then [UInt8.ofNat (n / 64 % 32 + 192), UInt8.ofNat (n % 64 + 128)]
      else if n ≤ 65535 then
        [UInt8.ofNat (n / 4096 % 16 + 224), UInt8.ofNat (n / 64 % 64 + 128),
          UInt8.ofNat (n % 64 + 128)]
      else
        [UInt8.ofNat (n / 262144 % 8 + 240), UInt8.ofNat (n / 4096 % 64 + 128),
          UInt8.ofNat (n / 64 % 64 + 128), UInt8.ofNat (n % 64 + 128)] := by
  have hn : (Char.ofNat n).val.toNat = n := by
    rw [Char.ofNat, dif_pos h]
    rfl
  unfold String.utf8EncodeChar
  rw [hn]

theorem ofNat_eq_of_toNat {n : Nat} {b : UInt8} (h : n = b.toNat) : UInt8.ofNat n = b := by
  rw [h, UInt8.ofNat_toNat]

theorem utf8EncodeChar_one {b₀ : UInt8} (h₀ : b₀.toNat < 0x80) :
    String.utf8EncodeChar (Char.ofNat b₀.toNat) = [b₀] := by
  rw [utf8EncodeChar_ofNat (.inl (by omega)), if_pos (by omega), UInt8.ofNat_toNat]

theorem utf8EncodeChar_two {b₀ b₁ : UInt8} (h₀ : 0xc2 ≤ b₀.toNat) (h₀' : b₀.toNat < 0xe0)
    (h₁ : 0x80 ≤ b₁.toNat) (h₁' : b₁.toNat ≤ 0xbf) :
    String.utf8EncodeChar (Char.ofNat (valueOf (b₀.toNat - 0xc0) [b₁])) = [b₀, b₁] := by
  have hvalue : valueOf (b₀.toNat - 0xc0) [b₁] =
      (b₀.toNat - 0xc0) * 64 + (b₁.toNat - 0x80) := rfl
  rw [hvalue, utf8EncodeChar_ofNat (.inl (by omega)), if_neg (by omega), if_pos (by omega),
    ofNat_eq_of_toNat (b := b₀) (by omega), ofNat_eq_of_toNat (b := b₁) (by omega)]

theorem utf8EncodeChar_three {b₀ b₁ b₂ : UInt8} (h₀ : 0xe0 ≤ b₀.toNat) (h₀' : b₀.toNat < 0xf0)
    (h₁ : 0x80 ≤ b₁.toNat) (h₁' : b₁.toNat ≤ 0xbf) (h₂ : 0x80 ≤ b₂.toNat) (h₂' : b₂.toNat ≤ 0xbf)
    (hlow : b₀.toNat = 0xe0 → 0xa0 ≤ b₁.toNat) (hhigh : b₀.toNat = 0xed → b₁.toNat ≤ 0x9f) :
    String.utf8EncodeChar (Char.ofNat (valueOf (b₀.toNat - 0xe0) [b₁, b₂])) = [b₀, b₁, b₂] := by
  have hvalue : valueOf (b₀.toNat - 0xe0) [b₁, b₂] =
      ((b₀.toNat - 0xe0) * 64 + (b₁.toNat - 0x80)) * 64 + (b₂.toNat - 0x80) := rfl
  have hvalid : (valueOf (b₀.toNat - 0xe0) [b₁, b₂]).isValidChar := by
    rw [hvalue]
    unfold Nat.isValidChar
    omega
  rw [utf8EncodeChar_ofNat hvalid, hvalue, if_neg (by omega), if_neg (by omega),
    if_pos (by omega), ofNat_eq_of_toNat (b := b₀) (by omega),
    ofNat_eq_of_toNat (b := b₁) (by omega), ofNat_eq_of_toNat (b := b₂) (by omega)]

theorem utf8EncodeChar_four {b₀ b₁ b₂ b₃ : UInt8} (h₀ : 0xf0 ≤ b₀.toNat) (h₀' : b₀.toNat < 0xf5)
    (h₁ : 0x80 ≤ b₁.toNat) (h₁' : b₁.toNat ≤ 0xbf) (h₂ : 0x80 ≤ b₂.toNat) (h₂' : b₂.toNat ≤ 0xbf)
    (h₃ : 0x80 ≤ b₃.toNat) (h₃' : b₃.toNat ≤ 0xbf) (hlow : b₀.toNat = 0xf0 → 0x90 ≤ b₁.toNat)
    (hhigh : b₀.toNat = 0xf4 → b₁.toNat ≤ 0x8f) :
    String.utf8EncodeChar (Char.ofNat (valueOf (b₀.toNat - 0xf0) [b₁, b₂, b₃])) =
      [b₀, b₁, b₂, b₃] := by
  have hvalue : valueOf (b₀.toNat - 0xf0) [b₁, b₂, b₃] =
      (((b₀.toNat - 0xf0) * 64 + (b₁.toNat - 0x80)) * 64 + (b₂.toNat - 0x80)) * 64 +
        (b₃.toNat - 0x80) := rfl
  have hvalid : (valueOf (b₀.toNat - 0xf0) [b₁, b₂, b₃]).isValidChar := by
    rw [hvalue]
    unfold Nat.isValidChar
    omega
  rw [utf8EncodeChar_ofNat hvalid, hvalue, if_neg (by omega), if_neg (by omega),
    if_neg (by omega), ofNat_eq_of_toNat (b := b₀) (by omega),
    ofNat_eq_of_toNat (b := b₁) (by omega), ofNat_eq_of_toNat (b := b₂) (by omega),
    ofNat_eq_of_toNat (b := b₃) (by omega)]

theorem scan_char {byte : UInt8} {rest : Bytes} (h : none ∉ scan none (byte :: rest)) :
    ∃ c tail rest', rest = tail ++ rest' ∧ String.utf8EncodeChar c = byte :: tail ∧
      scan none (byte :: rest) = some c :: scan none rest' := by
  rw [scan_first] at h ⊢
  have hinvalid (hfirst : first byte = .invalid) : False := by simp [hfirst] at h
  -- The first byte says how many follow, and the range of the next one keeps out overlong forms and
  -- surrogates.
  by_cases hone : byte.toNat < 0x80
  · have hfirst : first byte = .char (Char.ofNat byte.toNat) := if_pos hone
    rw [hfirst]
    exact ⟨_, [], rest, rfl, utf8EncodeChar_one hone, rfl⟩
  by_cases hstray : byte.toNat < 0xc2
  · exact absurd (show first byte = .invalid by simp [first, hone, hstray]) hinvalid
  by_cases htwo : byte.toNat < 0xe0
  · have hfirst : first byte = .more ⟨byte.toNat - 0xc0, 1, 0x80, 0xbf⟩ := by
      simp [first, hone, hstray, htwo]
    rw [hfirst] at h ⊢
    obtain ⟨tail, rest', rfl, hlength, hhead, -, hscan⟩ := scan_begun 0 _ rest rfl h
    obtain ⟨b₁, rfl⟩ := List.length_eq_one_iff.mp hlength
    obtain ⟨h₁, h₁'⟩ := hhead b₁ rfl
    exact ⟨_, _, rest', rfl, utf8EncodeChar_two (by omega) htwo h₁ h₁', hscan⟩
  by_cases hthree : byte.toNat < 0xf0
  · have hfirst : first byte = .more ⟨byte.toNat - 0xe0, 2,
        if byte.toNat = 0xe0 then 0xa0 else 0x80, if byte.toNat = 0xed then 0x9f else 0xbf⟩ := by
      simp [first, hone, hstray, htwo, hthree]
    rw [hfirst] at h ⊢
    obtain ⟨tail, rest', rfl, hlength, hhead, htail, hscan⟩ := scan_begun 1 _ rest rfl h
    obtain ⟨b₁, b₂, rfl⟩ := List.length_eq_two.mp hlength
    obtain ⟨h₁, h₁'⟩ := hhead b₁ rfl
    obtain ⟨h₂, h₂'⟩ := htail b₂ (by simp)
    dsimp only at h₁ h₁'
    refine ⟨_, _, rest', rfl, utf8EncodeChar_three (by omega) hthree ?_ ?_ h₂ h₂' ?_ ?_, hscan⟩
    · split at h₁ <;> omega
    · split at h₁' <;> omega
    · intro he
      rwa [if_pos he] at h₁
    · intro he
      rwa [if_pos he] at h₁'
  by_cases hfour : byte.toNat < 0xf5
  · have hfirst : first byte = .more ⟨byte.toNat - 0xf0, 3,
        if byte.toNat = 0xf0 then 0x90 else 0x80, if byte.toNat = 0xf4 then 0x8f else 0xbf⟩ := by
      simp [first, hone, hstray, htwo, hthree, hfour]
    rw [hfirst] at h ⊢
    obtain ⟨tail, rest', rfl, hlength, hhead, htail, hscan⟩ := scan_begun 2 _ rest rfl h
    obtain ⟨b₁, b₂, b₃, rfl⟩ := List.length_eq_three.mp hlength
    obtain ⟨h₁, h₁'⟩ := hhead b₁ rfl
    obtain ⟨h₂, h₂'⟩ := htail b₂ (by simp)
    obtain ⟨h₃, h₃'⟩ := htail b₃ (by simp)
    dsimp only at h₁ h₁'
    refine ⟨_, _, rest', rfl,
      utf8EncodeChar_four (by omega) hfour ?_ ?_ h₂ h₂' h₃ h₃' ?_ ?_, hscan⟩
    · split at h₁ <;> omega
    · split at h₁' <;> omega
    · intro he
      rwa [if_pos he] at h₁
    · intro he
      rwa [if_pos he] at h₁'
  · exact absurd (show first byte = .invalid by simp [first, hone, hstray, htwo, hthree, hfour])
      hinvalid

theorem scan_written (n : Nat) : ∀ bytes : Bytes, bytes.length ≤ n → none ∉ scan none bytes →
    ∃ characters : List Char, scan none bytes = characters.map some ∧
      characters.flatMap String.utf8EncodeChar = bytes := by
  induction n with
  | zero =>
    intro bytes hlength _
    obtain rfl := List.length_eq_zero_iff.mp (Nat.le_zero.mp hlength)
    exact ⟨[], rfl, rfl⟩
  | succ n ih =>
    intro bytes hlength h
    cases bytes with
    | nil => exact ⟨[], rfl, rfl⟩
    | cons byte rest =>
      obtain ⟨c, tail, rest', rfl, hc, hscan⟩ := scan_char h
      rw [hscan] at h ⊢
      simp only [List.length_cons, List.length_append] at hlength
      obtain ⟨characters, hrest, hwritten⟩ := ih rest' (by omega) fun hnone =>
        h (List.mem_cons_of_mem _ hnone)
      refine ⟨c :: characters, by rw [hrest, List.map_cons], ?_⟩
      rw [List.flatMap_cons, hc, hwritten, List.cons_append]

theorem mapM_id_eq_none_of_mem {characters : List (Option Char)} (h : none ∈ characters) :
    characters.mapM id = none := by
  induction characters with
  | nil => cases h
  | cons c rest ih =>
    rw [List.mapM_cons]
    rcases List.mem_cons.mp h with rfl | hrest
    · rfl
    · rw [ih hrest]
      cases c <;> rfl

theorem scan_of_decode? {bytes : Bytes} {text : String} (h : decode? bytes = some text) :
    none ∉ scan none bytes := by
  intro hnone
  rw [decode?, mapM_id_eq_none_of_mem hnone] at h
  cases h

theorem utf8_decodeLossy {bytes : Bytes} (h : (decode? bytes).isSome) :
    utf8 (decodeLossy bytes) = bytes := by
  obtain ⟨text, htext⟩ := Option.isSome_iff_exists.mp h
  obtain ⟨characters, hscan, hwritten⟩ :=
    scan_written bytes.length bytes (Nat.le_refl _) (scan_of_decode? htext)
  have hread : (characters.map some).map (fun c => c.getD '\ufffd') = characters := by
    rw [List.map_map]
    exact List.map_id characters
  rw [decodeLossy, hscan, hread, utf8_ofList, hwritten]

section

variable {value low high n : Nat} (hn : n < 64) (hlow : low ≤ n + 128) (hhigh : n + 128 ≤ high)
  (rest : Bytes)
include hn hlow hhigh

theorem continue?_tail (owed : Nat) :
    continue? ⟨value, owed, low, high⟩ (UInt8.ofNat (n + 128)) =
      if owed = 1 then .char (Char.ofNat (value * 64 + n))
      else .more ⟨value * 64 + n, owed - 1, 0x80, 0xbf⟩ := by
  have hsize : UInt8.size = 256 := rfl
  have hbyte : (UInt8.ofNat (n + 128)).toNat = n + 128 := UInt8.toNat_ofNat_of_lt' (by omega)
  have hvalue : n + 128 - 0x80 = n := by omega
  simp only [continue?, hbyte, hlow, hhigh, and_self, if_true, hvalue]

theorem scan_more (owed : Nat) :
    scan (some ⟨value, owed + 2, low, high⟩) (UInt8.ofNat (n + 128) :: rest) =
      scan (some ⟨value * 64 + n, owed + 1, 0x80, 0xbf⟩) rest := by
  rw [scan, continue?_tail hn hlow hhigh, if_neg (by omega)]
  rfl

theorem scan_last :
    scan (some ⟨value, 1, low, high⟩) (UInt8.ofNat (n + 128) :: rest) =
      some (Char.ofNat (value * 64 + n)) :: scan none rest := by
  rw [scan, continue?_tail hn hlow hhigh, if_pos rfl]

end

theorem scan_written_char (c : Char) (rest : Bytes) :
    scan none (String.utf8EncodeChar c ++ rest) = some c :: scan none rest := by
  have hc : Char.ofNat c.toNat = c := Char.ofNat_toNat c
  have hvalid : c.toNat < 0xd800 ∨ 0xdfff < c.toNat ∧ c.toNat < 0x110000 := c.valid
  have hchar : c.toNat.isValidChar := c.valid
  have hsize : UInt8.size = 256 := rfl
  rw [← hc, utf8EncodeChar_ofNat hchar]
  generalize c.toNat = n at hvalid
  split_ifs with hone htwo hthree
  · have hbyte : (UInt8.ofNat n).toNat = n := UInt8.toNat_ofNat_of_lt' (by omega)
    have hfirst : first (UInt8.ofNat n) = .char (Char.ofNat n) := by
      rw [first, hbyte, if_pos (by omega)]
    rw [List.singleton_append, scan_first, hfirst]
  · have hbyte : (UInt8.ofNat (n / 64 % 32 + 192)).toNat = n / 64 + 192 := by
      rw [UInt8.toNat_ofNat_of_lt' (by omega)]
      omega
    have hbegun : n / 64 + 192 - 0xc0 = n / 64 := by omega
    have hfirst : first (UInt8.ofNat (n / 64 % 32 + 192)) = .more ⟨n / 64, 1, 0x80, 0xbf⟩ := by
      rw [first, hbyte, if_neg (by omega), if_neg (by omega), if_pos (by omega), hbegun]
    have hvalue : n / 64 * 64 + n % 64 = n := by omega
    simp only [List.cons_append, List.nil_append, scan_first, hfirst]
    rw [scan_last (by omega) (by omega) (by omega), hvalue]
  · have hbyte : (UInt8.ofNat (n / 4096 % 16 + 224)).toNat = n / 4096 + 224 := by
      rw [UInt8.toNat_ofNat_of_lt' (by omega)]
      omega
    have hbegun : n / 4096 + 224 - 0xe0 = n / 4096 := by omega
    have hfirst : first (UInt8.ofNat (n / 4096 % 16 + 224)) =
        .more ⟨n / 4096, 2, if n / 4096 + 224 = 0xe0 then 0xa0 else 0x80,
          if n / 4096 + 224 = 0xed then 0x9f else 0xbf⟩ := by
      rw [first, hbyte, if_neg (by omega), if_neg (by omega), if_neg (by omega),
        if_pos (by omega), hbegun]
    have hvalue : (n / 4096 * 64 + n / 64 % 64) * 64 + n % 64 = n := by omega
    simp only [List.cons_append, List.nil_append, scan_first, hfirst]
    rw [scan_more (by omega) (by split_ifs <;> omega) (by split_ifs <;> omega),
      scan_last (by omega) (by omega) (by omega), hvalue]
  · have hbyte : (UInt8.ofNat (n / 262144 % 8 + 240)).toNat = n / 262144 + 240 := by
      rw [UInt8.toNat_ofNat_of_lt' (by omega)]
      omega
    have hbegun : n / 262144 + 240 - 0xf0 = n / 262144 := by omega
    have hfirst : first (UInt8.ofNat (n / 262144 % 8 + 240)) =
        .more ⟨n / 262144, 3, if n / 262144 + 240 = 0xf0 then 0x90 else 0x80,
          if n / 262144 + 240 = 0xf4 then 0x8f else 0xbf⟩ := by
      rw [first, hbyte, if_neg (by omega), if_neg (by omega), if_neg (by omega),
        if_neg (by omega), if_pos (by omega), hbegun]
    have hvalue :
        ((n / 262144 * 64 + n / 4096 % 64) * 64 + n / 64 % 64) * 64 + n % 64 = n := by omega
    simp only [List.cons_append, List.nil_append, scan_first, hfirst]
    rw [scan_more (by omega) (by split_ifs <;> omega) (by split_ifs <;> omega),
      scan_more (by omega) (by omega) (by omega), scan_last (by omega) (by omega) (by omega),
      hvalue]

theorem scan_utf8 (characters : List Char) :
    scan none (characters.flatMap String.utf8EncodeChar) = characters.map some := by
  induction characters with
  | nil => rfl
  | cons c rest ih => rw [List.flatMap_cons, scan_written_char, ih, List.map_cons]

theorem mapM_id_some (characters : List Char) :
    (characters.map some).mapM id = some characters := by
  induction characters with
  | nil => rfl
  | cons c rest ih =>
    rw [List.map_cons, List.mapM_cons, ih]
    rfl

theorem decode?_utf8 (text : String) : decode? (utf8 text) = some text := by
  obtain ⟨characters, rfl⟩ : ∃ characters, text = String.ofList characters :=
    ⟨text.toList, String.ofList_toList.symm⟩
  rw [utf8_ofList, decode?, scan_utf8, mapM_id_some]
  rfl

theorem zero_mem_utf8EncodeChar {c : Char} (h : 0 ∈ String.utf8EncodeChar c) : c = '\x00' := by
  have hc : Char.ofNat c.toNat = c := Char.ofNat_toNat c
  have hchar : c.toNat.isValidChar := c.valid
  rw [← hc, utf8EncodeChar_ofNat hchar] at h
  rw [← hc]
  generalize c.toNat = n at h
  have hbyte {k : Nat} (hk : k < 256) (hzero : 0 = UInt8.ofNat k) : k = 0 := by
    have hnat := congrArg UInt8.toNat hzero
    rw [UInt8.toNat_ofNat_of_lt' hk] at hnat
    exact hnat.symm
  split_ifs at h
  · rw [hbyte (by omega) (List.mem_singleton.mp h)]
  -- The bytes of a longer sequence are all above 127.
  all_goals
    exfalso
    simp only [List.mem_cons, List.not_mem_nil, or_false] at h
  · rcases h with h | h <;> exact absurd (hbyte (by omega) h) (by omega)
  · rcases h with h | h | h <;> exact absurd (hbyte (by omega) h) (by omega)
  · rcases h with h | h | h | h <;> exact absurd (hbyte (by omega) h) (by omega)

theorem untilZero_utf8 (text : String) :
    (utf8 text).untilZero = utf8 (String.ofList (text.toList.takeWhile (· ≠ '\x00'))) := by
  obtain ⟨characters, rfl⟩ : ∃ characters, text = String.ofList characters :=
    ⟨text.toList, String.ofList_toList.symm⟩
  rw [String.toList_ofList, utf8_ofList, utf8_ofList]
  induction characters with
  | nil => rfl
  | cons c rest ih =>
    rw [List.flatMap_cons]
    by_cases hc : c = '\x00'
    · subst hc
      rfl
    · have hmore : (c :: rest).takeWhile (· ≠ '\x00') = c :: rest.takeWhile (· ≠ '\x00') :=
        List.takeWhile_cons_of_pos (decide_eq_true hc)
      have hbytes : ∀ byte ∈ String.utf8EncodeChar c, (byte != 0) = true := by
        intro byte hbyte
        rw [bne_iff_ne]
        rintro rfl
        exact hc (zero_mem_utf8EncodeChar hbyte)
      rw [hmore, List.flatMap_cons, Bytes.untilZero, List.takeWhile_append_of_pos hbytes]
      exact congrArg _ ih

end Utf8

end SimpleBinary
