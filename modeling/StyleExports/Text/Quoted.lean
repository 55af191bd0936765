import StyleExports.Text.Blank

namespace StyleExports.Text.Quoted

def hexDigit (n : Nat) : Char :=
  if n < 10 then Char.ofNat (48 + n) else Char.ofNat (87 + n)

def escape (c : Char) : List Char :=
  if c = '"' then ['\\', '"']
  else if c = '\\' then ['\\', '\\']
  else if c = '\x08' then ['\\', 'b']
  else if c = '\x0c' then ['\\', 'f']
  else if c = '\n' then ['\\', 'n']
  else if c = '\r' then ['\\', 'r']
  else if c = '\t' then ['\\', 't']
  else if c.toNat < 0x20 then
    ['\\', 'u', '0', '0', hexDigit (c.toNat / 16), hexDigit (c.toNat % 16)]
  else [c]

def encodeBody : List Char → List Char
  | [] => ['"']
  | c :: s => escape c ++ encodeBody s

def encode (s : List Char) : List Char := '"' :: encodeBody s

def literal (s : String) : String := String.ofList (encode s.toList)

def hexValue? (c : Char) : Option Nat :=
  if '0' ≤ c ∧ c ≤ '9' then some (c.toNat - 48)
  else if 'a' ≤ c ∧ c ≤ 'f' then some (c.toNat - 87)
  else if 'A' ≤ c ∧ c ≤ 'F' then some (c.toNat - 55)
  else none

/-- The number written by the next four hexadecimal digits, and what follows them. -/
def unit? : List Char → Option (Nat × List Char)
  | a :: b :: c :: d :: s => do
    let a ← hexValue? a
    let b ← hexValue? b
    let c ← hexValue? c
    let d ← hexValue? d
    return (((a * 16 + b) * 16 + c) * 16 + d, s)
  | _ => none

/-- The first half of a surrogate pair. -/
def isLeading (n : Nat) : Bool := 0xd800 ≤ n && n < 0xdc00

def isTrailing (n : Nat) : Bool := 0xdc00 ≤ n && n < 0xe000

/-- The character that a backslash followed by `c` stands for. -/
def short? (c : Char) : Option Char :=
  if c = '"' ∨ c = '\\' ∨ c = '/' then some c
  else if c = 'b' then some '\x08'
  else if c = 'f' then some '\x0c'
  else if c = 'n' then some '\n'
  else if c = 'r' then some '\r'
  else if c = 't' then some '\t'
  else none

/-- The character of a numeric escape; half a surrogate pair stands for none. -/
def numeric? (s : List Char) : Option (Char × List Char) :=
  match unit? s with
  | none => none
  | some (n, t) =>
    if isTrailing n then none
    else if isLeading n then
      match t with
      | '\\' :: 'u' :: t =>
        match unit? t with
        | none => none
        | some (m, t) =>
          if isTrailing m then
            some (Char.ofNat (0x10000 + (n - 0xd800) * 0x400 + (m - 0xdc00)), t)
          else none
      | _ => none
    else some (Char.ofNat n, t)

def escaped? : List Char → Option (Char × List Char)
  | [] => none
  | c :: s => if c = 'u' then numeric? s else (short? c).map (·, s)

theorem length_of_unit? {s t : List Char} {n : Nat} (h : unit? s = some (n, t)) :
    t.length < s.length := by
  unfold unit? at h
  split at h
  · simp only [Option.bind_eq_bind, Option.bind_eq_some_iff, Option.pure_def, Option.some.injEq,
      Prod.mk.injEq] at h
    obtain ⟨_, _, _, _, _, _, _, _, _, rfl⟩ := h
    simp
    omega
  · simp at h

theorem length_of_numeric? {s t : List Char} {c : Char} (h : numeric? s = some (c, t)) :
    t.length < s.length := by
  unfold numeric? at h
  split at h
  · simp at h
  · rename_i n u hu
    have hl := length_of_unit? hu
    split at h
    · simp at h
    · split at h
      · split at h
        · split at h
          · simp at h
          · rename_i v m w hw
            have hm := length_of_unit? hw
            split at h
            · simp only [Option.some.injEq, Prod.mk.injEq] at h
              obtain ⟨_, rfl⟩ := h
              simp only [List.length_cons] at hl
              omega
            · simp at h
        · simp at h
      · simp only [Option.some.injEq, Prod.mk.injEq] at h
        obtain ⟨_, rfl⟩ := h
        exact hl

theorem length_of_escaped? {s t : List Char} {c : Char} (h : escaped? s = some (c, t)) :
    t.length < s.length := by
  unfold escaped? at h
  split at h
  · simp at h
  · split at h
    · have := length_of_numeric? h
      simp only [List.length_cons]
      omega
    · simp only [Option.map_eq_some_iff, Prod.mk.injEq] at h
      obtain ⟨_, _, _, rfl⟩ := h
      simp

/-- The text of a literal whose opening quote is behind us, and what follows the literal. Control
characters must be escaped. -/
def decodeBody (s : List Char) : Option (List Char × List Char) :=
  match s with
  | [] => none
  | c :: s =>
    if c = '"' then some ([], s)
    else if c = '\\' then
      match _h : escaped? s with
      | none => none
      | some (d, t) => (decodeBody t).map fun (u, r) => (d :: u, r)
    else if c.toNat < 0x20 then none
    else (decodeBody s).map fun (u, r) => (c :: u, r)
termination_by s.length
decreasing_by
  · have := length_of_escaped? _h
    simp only [List.length_cons]
    omega
  · simp

theorem length_of_decodeBody {s u t : List Char} (h : decodeBody s = some (u, t)) :
    t.length < s.length := by
  fun_induction decodeBody s generalizing u with
  | case1 => simp at h
  | case2 s =>
    simp only [Option.some.injEq, Prod.mk.injEq] at h
    obtain ⟨_, rfl⟩ := h
    simp
  | case3 => simp at h
  | case4 s d v hv _ ih =>
    simp only [Option.map_eq_some_iff, Prod.mk.injEq, Prod.exists] at h
    obtain ⟨a, b, hab, _, rfl⟩ := h
    have := length_of_escaped? hv
    have := ih hab
    simp only [List.length_cons]
    omega
  | case5 => simp at h
  | case6 c s _ _ _ ih =>
    simp only [Option.map_eq_some_iff, Prod.mk.injEq, Prod.exists] at h
    obtain ⟨a, b, hab, _, rfl⟩ := h
    have := ih hab
    simp only [List.length_cons]
    omega

end StyleExports.Text.Quoted
