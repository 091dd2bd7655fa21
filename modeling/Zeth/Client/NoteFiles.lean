import Zeth.Client.Wallet

/-!
# The names of note files

The name of a note file is made of the address of the note, the first four bytes of its commitment
and its value (`Wallet._note_basename`), and the file of a spent note is looked for by the second of
these (`Wallet._find_note_file` of `client/zeth/core/wallet.py`). The pattern that is given to `glob`
matches the files of all notes whose commitments start with these four bytes.

`glob` and `int` are parameters. Of `glob` it is assumed that it reads an asterisk as any string and
other characters as themselves, if they are not special.

## Main definitions

* `Stdlib`, `Literal`, `Web3.Numeral`.
* `Wallet.findNoteFile`.
* `Owner`: the constant part of a wallet, and `Owner.noteName`, `Owner.file`.

## Main results

* `Owner.noteName_inj`: files of notes at different addresses have different names.
* `Owner.fnmatch_noteName`: the files that the pattern of a commitment matches.
-/

namespace Zeth.Client

open ByteString Python List

/-! ### Patterns -/

/-- A text that `glob` reads literally, within one directory. -/
def Literal (s : String) : Prop := ∀ c ∈ s.toList, c ≠ '*' ∧ c ≠ '?' ∧ c ≠ '[' ∧ c ≠ '/'

instance (s : String) : Decidable (Literal s) :=
  List.decidableBAll (fun c => c ≠ '*' ∧ c ≠ '?' ∧ c ≠ '[' ∧ c ≠ '/') s.toList

theorem Literal.append {s t : String} (hs : Literal s) (ht : Literal t) : Literal (s ++ t) := by
  intro c hc
  rw [String.toList_append] at hc
  exact (mem_append.mp hc).elim (hs c) (ht c)

/-- The parts of the standard library with which note files are looked for. -/
structure Stdlib where
  /-- Whether `glob.glob(join(wallet_dir, wildcard))` has the file of the given name. The directory
  is taken to be literal, as the user name is. -/
  fnmatch : String → String → Bool
  fnmatch_iff : ∀ start middle, Literal start → Literal middle → ∀ name,
    fnmatch (start ++ "*" ++ middle ++ "*") name = true ↔
      ∃ x y, name = start ++ x ++ middle ++ y
  /-- `int(s)` -/
  int : String → Except Exc ℤ

/-- Amounts are shown as numerals of `Decimal` or `int`, which have no underscore. -/
def Web3.Numeral (W : Web3) : Prop :=
  ∀ amount s, W.fromWei amount = .ok s → '_' ∉ s.toList

/-- `"%04d" % n`. -/
def formatInt04d (n : ℤ) : String :=
  if n < 0 then
    "-" ++ String.ofList (List.replicate (3 - (toString n.natAbs).length) '0') ++
      toString n.natAbs
  else format04d n.toNat

namespace Wallet

variable {C : Cryptography} (L : Stdlib)

/-- The only file that matches, if there is one only. -/
def globOne (w : Wallet C) (wildcard : String) : Option String :=
  let candidates := (w.disk.noteFiles.map Prod.fst).filter (L.fnmatch wildcard)
  if candidates.length = 1 then candidates.head? else none

/-- `_find_note_file`. -/
def findNoteFile (w : Wallet C) (key : String) : Option String :=
  -- up to four characters are an address, more are a commitment
  if key.length < 5 then
    match L.int key with
    | .ok addr => globOne L w ("note_" ++ w.username ++ "_" ++ formatInt04d addr ++ "_*")
    | .error _ => none
  else globOne L w ("note_" ++ w.username ++ "_*_" ++ key ++ "_*")

end Wallet

/-! ### Underscores -/

section Underscores

theorem underscore_notMem_format04d (n : ℕ) : '_' ∉ (format04d n).toList := by
  rw [format04d, Nat.toString_eq_ofList_toDigits, String.toList_append, String.toList_ofList,
    String.toList_ofList, mem_append, not_or]
  refine ⟨fun h => ?_, Nat.underscore_not_in_toDigits⟩
  exact absurd (eq_of_mem_replicate h) (by decide)

theorem format04d_injective : Function.Injective format04d := by
  intro m n h
  have hvalue (k : ℕ) : Nat.ofDigitChars 10 (format04d k).toList 0 = k := by
    rw [format04d, Nat.toString_eq_ofList_toDigits, String.toList_append, String.toList_ofList,
      String.toList_ofList, Nat.ofDigitChars_append, Nat.ofDigitChars_replicate_zero, Nat.mul_zero,
      Nat.ofDigitChars_ten_toDigits]
  rw [← hvalue m, h, hvalue]

theorem mem_hexChars {bs : Bytes} {c : Char} (h : c ∈ hexChars bs) :
    ∃ n < 16, c = hexDigit n := by
  induction bs with
  | nil => cases h
  | cons b bs ih =>
    have hb : b.toNat < 256 := b.isLt
    rcases mem_cons.mp h with rfl | h
    · exact ⟨_, by omega, rfl⟩
    rcases mem_cons.mp h with rfl | h
    · exact ⟨_, by omega, rfl⟩
    · exact ih h

theorem literal_hex (bs : Bytes) : Literal (hex bs) := by
  intro c hc
  rw [hex, String.toList_ofList] at hc
  obtain ⟨n, hn, rfl⟩ := mem_hexChars hc
  interval_cases n <;> decide

theorem underscore_notMem_hex (bs : Bytes) : '_' ∉ (hex bs).toList := by
  intro hc
  rw [hex, String.toList_ofList] at hc
  obtain ⟨n, hn, hunderscore⟩ := mem_hexChars hc
  revert hunderscore
  interval_cases n <;> decide

/-- Texts without a separator before the first one are determined. -/
theorem append_cons_left_inj {α : Type*} {s : α} {a x b y : List α} (ha : s ∉ a) (hx : s ∉ x)
    (h : a ++ s :: b = x ++ s :: y) : a = x ∧ b = y := by
  induction a generalizing x with
  | nil =>
    cases x with
    | nil => exact ⟨rfl, tail_eq_of_cons_eq h⟩
    | cons c x => exact absurd (head_eq_of_cons_eq h ▸ mem_cons_self) hx
  | cons c a ih =>
    cases x with
    | nil => exact absurd (head_eq_of_cons_eq h ▸ mem_cons_self) ha
    | cons c' x =>
      obtain ⟨rfl, htail⟩ := cons_eq_cons.mp h
      rw [mem_cons, not_or] at ha hx
      obtain ⟨rfl, rfl⟩ := ih ha.2 hx.2 htail
      exact ⟨rfl, rfl⟩

/-- Of three texts with separators between them, one with separators around it is the middle one. -/
theorem eq_of_append_cons_append_cons {α : Type*} [DecidableEq α] {s : α}
    {a b c x k y : List α} (ha : s ∉ a) (hb : s ∉ b) (hc : s ∉ c) (hk : s ∉ k)
    (h : a ++ s :: (b ++ s :: c) = x ++ s :: (k ++ s :: y)) : k = b := by
  have hcount := congrArg (List.count s) h
  simp only [count_append, count_cons_self, count_eq_zero_of_not_mem ha,
    count_eq_zero_of_not_mem hb, count_eq_zero_of_not_mem hc,
    count_eq_zero_of_not_mem hk] at hcount
  have hx : s ∉ x := count_eq_zero.mp (by omega)
  obtain ⟨-, hrest⟩ := append_cons_left_inj ha hx h
  exact (append_cons_left_inj hb hk hrest).1.symm

end Underscores

/-! ### The files of an owner -/

/-- The part of a wallet that does not change. -/
structure Owner (C : Cryptography) where
  username : String
  aSk : Bytes
  kSkReceiver : C.SecretKey

/-- The owner of a wallet. -/
def Wallet.owner {C : Cryptography} (w : Wallet C) : Owner C :=
  ⟨w.username, w.aSk, w.kSkReceiver⟩

namespace Owner

variable {C : Cryptography} (W : Web3) (o : Owner C)

/-- The name of a note file. -/
def noteName (noteDesc : ZethNoteDescription) : String :=
  (Wallet.noteBasename W o.username noteDesc).toOption.getD ""

/-- A note file. -/
def file (noteDesc : ZethNoteDescription) : String × ZethNoteDescription :=
  (o.noteName W noteDesc, noteDesc)

variable {W o}

theorem noteBasename_eq {noteDesc : ZethNoteDescription} (h : noteDesc.note.IsHex) :
    Wallet.noteBasename W o.username noteDesc = .ok (o.noteName W noteDesc) := by
  obtain ⟨s, hs⟩ := Wallet.exists_noteBasename W o.username h
  rw [noteName, hs]
  rfl

/-- The three parts of a name. -/
theorem exists_noteName_eq (hvalue : W.Numeral) {noteDesc : ZethNoteDescription}
    (h : noteDesc.note.IsHex) : ∃ value, '_' ∉ value.toList ∧
      o.noteName W noteDesc = "note_" ++ o.username ++ "_" ++ format04d noteDesc.address ++ "_" ++
        shortCommitment noteDesc.commitment ++ "_" ++ value := by
  have hname := noteBasename_eq (W := W) (o := o) h
  obtain ⟨units, -, hname⟩ := Except.bind_eq_ok.mp hname
  obtain ⟨wei, -, hname⟩ := Except.bind_eq_ok.mp hname
  obtain ⟨value, hwei, hname⟩ := Except.bind_eq_ok.mp hname
  exact ⟨value, hvalue wei value hwei, (Except.ok.inj hname).symm⟩

/-- The name after the part that all files of the owner share. -/
theorem exists_toList_noteName (hvalue : W.Numeral) {noteDesc : ZethNoteDescription}
    (h : noteDesc.note.IsHex) : ∃ value : List Char, '_' ∉ value ∧
      (o.noteName W noteDesc).toList = ("note_" ++ o.username ++ "_").toList ++
        ((format04d noteDesc.address).toList ++ '_' ::
          ((shortCommitment noteDesc.commitment).toList ++ '_' :: value)) := by
  obtain ⟨value, hunderscore, hname⟩ := exists_noteName_eq hvalue h
  refine ⟨value.toList, hunderscore, ?_⟩
  rw [hname]
  simp only [String.toList_append, append_assoc]
  rfl

/-- Files of notes at different addresses have different names. -/
theorem noteName_inj (hvalue : W.Numeral) {d d' : ZethNoteDescription} (hd : d.note.IsHex)
    (hd' : d'.note.IsHex) (h : o.noteName W d = o.noteName W d') : d.address = d'.address := by
  obtain ⟨value, -, hname⟩ := exists_toList_noteName (o := o) hvalue hd
  obtain ⟨value', -, hname'⟩ := exists_toList_noteName (o := o) hvalue hd'
  rw [h, hname'] at hname
  have haddr := append_cons_left_inj (underscore_notMem_format04d _)
    (underscore_notMem_format04d _) (append_cancel_left hname)
  exact format04d_injective (String.toList_inj.mp haddr.1.symm)

/-- The pattern of a key matches the files of the notes whose commitments start with it. -/
theorem fnmatch_noteName_key (L : Stdlib) (husername : Literal o.username) (hvalue : W.Numeral)
    {d : ZethNoteDescription} (hd : d.note.IsHex) {key : String} (hkey : Literal key)
    (hkey' : '_' ∉ key.toList) :
    L.fnmatch ("note_" ++ o.username ++ "_*_" ++ key ++ "_*") (o.noteName W d) = true ↔
      shortCommitment d.commitment = key := by
  have hwildcard : "note_" ++ o.username ++ "_*_" ++ key ++ "_*" =
      ("note_" ++ o.username ++ "_") ++ "*" ++ ("_" ++ key ++ "_") ++ "*" := by
    apply String.toList_inj.mp
    simp only [String.toList_append, append_assoc]
    rfl
  have hstart : Literal ("note_" ++ o.username ++ "_") :=
    ((by decide : Literal "note_").append husername).append (by decide)
  have hmiddle : Literal ("_" ++ key ++ "_") :=
    ((by decide : Literal "_").append hkey).append (by decide)
  obtain ⟨value, hunderscore, hname⟩ := exists_toList_noteName (o := o) hvalue hd
  rw [hwildcard, L.fnmatch_iff _ _ hstart hmiddle]
  constructor
  · rintro ⟨x, y, hxy⟩
    have hlist : (o.noteName W d).toList = ("note_" ++ o.username ++ "_").toList ++
        (x.toList ++ '_' :: (key.toList ++ '_' :: y.toList)) := by
      rw [hxy]
      simp only [String.toList_append, append_assoc]
      rfl
    have hrest := append_cancel_left (hname.symm.trans hlist)
    have hshort := eq_of_append_cons_append_cons (underscore_notMem_format04d _)
      (underscore_notMem_hex _) hunderscore hkey' hrest
    exact (String.toList_inj.mp hshort).symm
  · intro hshort
    refine ⟨format04d d.address, String.ofList value, String.toList_inj.mp ?_⟩
    rw [hname, hshort]
    simp only [String.toList_append, append_assoc, String.toList_ofList]
    rfl

/-- The pattern of a commitment matches the files of the notes whose commitments start alike. -/
theorem fnmatch_noteName (L : Stdlib) (husername : Literal o.username) (hvalue : W.Numeral)
    {d : ZethNoteDescription} (hd : d.note.IsHex) (cm : Bytes) :
    L.fnmatch ("note_" ++ o.username ++ "_*_" ++ shortCommitment cm ++ "_*") (o.noteName W d) =
        true ↔
      shortCommitment d.commitment = shortCommitment cm :=
  fnmatch_noteName_key L husername hvalue hd (literal_hex _) (underscore_notMem_hex _)

end Owner

/-! ### Plain libraries -/

/-- Patterns in which only the asterisk is special. -/
def globMatch : List Char → List Char → Bool
  | [], [] => true
  | [], _ :: _ => false
  | p :: ps, [] => p == '*' && globMatch ps []
  | p :: ps, c :: cs =>
    if p = '*' then globMatch ps (c :: cs) || globMatch (p :: ps) cs
    else p == c && globMatch ps cs
termination_by ps cs => ps.length + cs.length

theorem globMatch_nil (cs : List Char) : globMatch [] cs = true ↔ cs = [] := by
  cases cs with
  | nil => simp [globMatch]
  | cons c cs => simp [globMatch]

/-- An asterisk stands for any text. -/
theorem globMatch_star (ps cs : List Char) :
    globMatch ('*' :: ps) cs = true ↔ ∃ x y, cs = x ++ y ∧ globMatch ps y = true := by
  induction cs with
  | nil => simp [globMatch]
  | cons c cs ih =>
    rw [globMatch, if_pos rfl, Bool.or_eq_true, ih]
    constructor
    · rintro (h | ⟨x, y, rfl, h⟩)
      · exact ⟨[], _, rfl, h⟩
      · exact ⟨c :: x, y, rfl, h⟩
    · rintro ⟨x, y, hxy, h⟩
      cases x with
      | nil =>
        obtain rfl : c :: cs = y := hxy
        exact .inl h
      | cons c' x =>
        obtain ⟨-, rfl⟩ := cons_eq_cons.mp hxy
        exact .inr ⟨x, y, rfl, h⟩

/-- Other characters stand for themselves. -/
theorem globMatch_append {literal : List Char} (hliteral : '*' ∉ literal) (ps cs : List Char) :
    globMatch (literal ++ ps) cs = true ↔ ∃ y, cs = literal ++ y ∧ globMatch ps y = true := by
  induction literal generalizing cs with
  | nil => simp
  | cons p literal ih =>
    rw [mem_cons, not_or] at hliteral
    have hne : p ≠ '*' := Ne.symm hliteral.1
    cases cs with
    | nil => simp [globMatch, hne]
    | cons c cs =>
      rw [cons_append, globMatch, if_neg hne, Bool.and_eq_true, beq_iff_eq, ih hliteral.2]
      constructor
      · rintro ⟨rfl, y, rfl, h⟩
        exact ⟨y, rfl, h⟩
      · rintro ⟨y, hcs, h⟩
        obtain ⟨rfl, rfl⟩ := cons_eq_cons.mp hcs
        exact ⟨rfl, y, rfl, h⟩

/-- A library with such patterns. -/
def plainStdlib : Stdlib where
  fnmatch wildcard name := globMatch wildcard.toList name.toList
  fnmatch_iff start middle hstart hmiddle name := by
    have hstar {s : String} (hs : Literal s) : '*' ∉ s.toList := fun h => (hs '*' h).1 rfl
    simp only [String.toList_append, append_assoc]
    rw [globMatch_append (hstar hstart)]
    constructor
    · rintro ⟨rest, hname, hrest⟩
      obtain ⟨x, rest', rfl, hrest'⟩ := (globMatch_star _ _).mp hrest
      obtain ⟨y, rfl, -⟩ := (globMatch_append (hstar hmiddle) _ _).mp hrest'
      refine ⟨String.ofList x, String.ofList y, String.toList_inj.mp ?_⟩
      simp only [hname, String.toList_append, String.toList_ofList, append_assoc]
    · rintro ⟨x, y, rfl⟩
      refine ⟨x.toList ++ (middle.toList ++ y.toList), ?_, ?_⟩
      · simp only [String.toList_append, append_assoc]
      · have hend : globMatch ['*'] y.toList = true :=
          (globMatch_star _ _).mpr ⟨y.toList, [], (append_nil _).symm, (globMatch_nil _).mpr rfl⟩
        exact (globMatch_star _ _).mpr ⟨x.toList, _, rfl,
          (globMatch_append (hstar hmiddle) _ _).mpr ⟨y.toList, rfl, hend⟩⟩
  int s := .error (.valueError ("invalid literal for int() with base 10: '" ++ s ++ "'"))

theorem numeral_plainWeb3 : Wallet.plainWeb3.Numeral := by
  intro amount s hs
  obtain rfl := Except.ok.inj hs
  rw [Nat.toString_eq_ofList_toDigits, String.toList_ofList]
  exact Nat.underscore_not_in_toDigits

end Zeth.Client
