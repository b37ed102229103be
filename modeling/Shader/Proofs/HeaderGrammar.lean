import Mathlib.Tactic.IntervalCases
import Shader.Emitter.Basic
import Shader.Proofs.Execution

/-!
The grammar of program headers, with the words of a header read as sums of their bytes. Main
statement: a header is read exactly if four checks pass, what is read depends on seven bytes alone, an
error names the first check that fails, and what was written as a header is read back.
-/

namespace Shader

/-! Words as numbers. -/

theorem toNat_or_shiftLeft {x y shift : UInt32} (unit : Nat)
    (scale : shift.toNat < 32 ∧ 2 ^ shift.toNat = unit) (low : x.toNat < unit)
    (fits : y.toNat * unit < 4294967296) : (x ||| y <<< shift).toNat = x.toNat + y.toNat * unit := by
  obtain ⟨inside, rfl⟩ := scale
  rw [UInt32.toNat_or, UInt32.toNat_shiftLeft, Nat.mod_eq_of_lt inside, Nat.shiftLeft_eq,
    Nat.mod_eq_of_lt fits, Nat.or_comm, ← Nat.shiftLeft_eq, ← Nat.shiftLeft_add_eq_or_of_lt low,
    Nat.add_comm]

theorem toNat_and_15 (x : UInt32) : (x &&& 0xf).toNat = x.toNat % 16 :=
  Nat.and_two_pow_sub_one_eq_mod x.toNat 4

theorem toNat_shiftRight_16 (x : UInt32) : (x >>> 16).toNat = x.toNat / 65536 :=
  Nat.shiftRight_eq_div_pow x.toNat 16

def wordAt (bytes : List UInt8) (k : Nat) : Nat :=
  (bytes.getD (4 * k) 0).toNat + (bytes.getD (4 * k + 1) 0).toNat * 0x100 +
    (bytes.getD (4 * k + 2) 0).toNat * 0x10000 + (bytes.getD (4 * k + 3) 0).toNat * 0x1000000

def wordBytes (w : UInt32) : List UInt8 :=
  [w.toUInt8, (w >>> 8).toUInt8, (w >>> 16).toUInt8, (w >>> 24).toUInt8]

theorem wordAt_lt (bytes : List UInt8) (k : Nat) : wordAt bytes k < 4294967296 := by
  have first := (bytes.getD (4 * k) 0).toNat_lt
  have second := (bytes.getD (4 * k + 1) 0).toNat_lt
  have third := (bytes.getD (4 * k + 2) 0).toNat_lt
  have fourth := (bytes.getD (4 * k + 3) 0).toNat_lt
  unfold wordAt
  omega

theorem wordAt_zero (bytes : List UInt8) : wordAt bytes 0 = (bytes.getD 0 0).toNat +
    (bytes.getD 1 0).toNat * 256 + (bytes.getD 2 0).toNat * 65536 +
      (bytes.getD 3 0).toNat * 16777216 := rfl

theorem wordAt_drop (bytes : List UInt8) : wordAt (bytes.drop 4) 0 = wordAt bytes 1 := by
  simp [wordAt, List.getD_eq_getElem?_getD, List.getElem?_drop]

theorem wordAt_wordBytes (w : UInt32) (rest : List UInt8) :
    wordAt (wordBytes w ++ rest) 0 = w.toNat := by
  have small := w.toNat_lt
  have sum : wordAt (wordBytes w ++ rest) 0 = w.toNat % 256 + w.toNat / 256 % 256 * 256 +
      w.toNat / 65536 % 256 * 65536 + w.toNat / 16777216 % 256 * 16777216 := by
    simp [wordAt, wordBytes, Nat.shiftRight_eq_div_pow]
  omega

theorem takeWord?_of_length {bytes : List UInt8} (enough : 4 ≤ bytes.length) :
    ∃ w, takeWord? bytes = some (w, bytes.drop 4) ∧ w.toNat = wordAt bytes 0 := by
  match bytes with
  | a :: b :: c :: d :: rest =>
    have ha : a.toUInt32.toNat < 256 := a.toNat_lt
    have hb : b.toUInt32.toNat < 256 := b.toNat_lt
    have hc : c.toUInt32.toNat < 256 := c.toNat_lt
    have hd : d.toUInt32.toNat < 256 := d.toNat_lt
    have two : (a.toUInt32 ||| b.toUInt32 <<< 8).toNat =
        a.toUInt32.toNat + b.toUInt32.toNat * 256 :=
      toNat_or_shiftLeft 256 (by decide) ha (by omega)
    have three : (a.toUInt32 ||| b.toUInt32 <<< 8 ||| c.toUInt32 <<< 16).toNat =
        (a.toUInt32 ||| b.toUInt32 <<< 8).toNat + c.toUInt32.toNat * 65536 :=
      toNat_or_shiftLeft 65536 (by decide) (by omega) (by omega)
    refine ⟨_, rfl, ?_⟩
    rw [toNat_or_shiftLeft 16777216 (by decide) (by omega) (by omega), three, two]
    rfl
  | [] | [_] | [_, _] | [_, _, _] => simp at enough

theorem takeWord?_of_short {bytes : List UInt8} (short : bytes.length < 4) :
    takeWord? bytes = none := by
  match bytes with
  | [] | [_] | [_, _] | [_, _, _] => rfl
  | _ :: _ :: _ :: _ :: rest =>
    simp only [List.length_cons] at short
    omega

/-! Version tokens. -/

namespace Stage

theorem code_le (stage : Stage) : stage.code.toNat ≤ 5 := by
  cases stage <;> decide

theorem ofCode?_code (stage : Stage) : ofCode? stage.code = some stage := by
  cases stage <;> rfl

theorem ofCode?_eq_some {code : UInt32} {stage : Stage} :
    ofCode? code = some stage ↔ stage.code = code := by
  constructor
  · intro found
    simpa using List.find?_some found
  · rintro rfl
    exact ofCode?_code stage

theorem code_injective {one other : Stage} (same : one.code = other.code) : one = other :=
  Option.some.inj ((ofCode?_code one).symm.trans (same ▸ ofCode?_code other))

theorem exists_code {code : UInt32} (known : code.toNat ≤ 5) : ∃ stage : Stage, stage.code = code := by
  have small : ∀ n ≤ 5, ∃ stage : Stage, stage.code = UInt32.ofNat n := by
    intro n le
    interval_cases n
    exacts [⟨pixel, rfl⟩, ⟨vertex, rfl⟩, ⟨geometry, rfl⟩, ⟨hull, rfl⟩, ⟨domain, rfl⟩, ⟨compute, rfl⟩]
  obtain ⟨stage, same⟩ := small code.toNat known
  exact ⟨stage, same.trans UInt32.ofNat_toNat⟩

theorem decode_eq_ok {code : UInt32} {stage : Stage} :
    decode code = .ok stage ↔ stage.code = code := by
  rw [← ofCode?_eq_some]
  unfold decode
  split <;> simp_all

theorem decode_of_unknown {code : UInt32} (unknown : 5 < code.toNat) :
    decode code = .error (.malformed (.unknownStage code)) := by
  unfold decode
  split
  · rename_i stage found
    rw [← ofCode?_eq_some.1 found] at unknown
    exact absurd stage.code_le (Nat.not_le.2 unknown)
  · rfl

end Stage

namespace Version

theorem toNat_token (v : Version) :
    v.token.toNat = v.stage.code.toNat * 65536 + v.major.toNat % 16 * 16 + v.minor.toNat % 16 := by
  have code := v.stage.code_le
  have minor := toNat_and_15 v.minor
  have major := toNat_and_15 v.major
  unfold token
  rw [UInt32.or_comm, UInt32.or_comm (v.stage.code <<< 16), ← UInt32.or_assoc]
  generalize v.minor &&& 0xf = low at minor ⊢
  generalize v.major &&& 0xf = middle at major ⊢
  have lower : (low ||| middle <<< 4).toNat = low.toNat + middle.toNat * 16 :=
    toNat_or_shiftLeft 16 (by decide) (by omega) (by omega)
  rw [toNat_or_shiftLeft 65536 (by decide) (by omega) (by omega)]
  omega

theorem ofToken_eq_ok {token : UInt32} {v : Version} : ofToken token = .ok v ↔
    v.stage.code.toNat = token.toNat / 65536 ∧ v.major.toNat = token.toNat / 16 % 16 ∧
      v.minor.toNat = token.toNat % 16 := by
  have stage := toNat_shiftRight_16 token
  have minor := toNat_and_15 token
  have major : (token >>> 4 &&& 0xf).toNat = token.toNat / 16 % 16 := by
    rw [toNat_and_15]
    exact congrArg (· % 16) (Nat.shiftRight_eq_div_pow token.toNat 4)
  unfold ofToken
  rw [bind_eq_ok]
  constructor
  · rintro ⟨found, known, same⟩
    obtain rfl := Except.ok.inj same
    rw [← stage, Stage.decode_eq_ok.1 known]
    exact ⟨rfl, major, minor⟩
  · rintro ⟨code, sameMajor, sameMinor⟩
    refine ⟨v.stage, Stage.decode_eq_ok.2 (UInt32.toNat_inj.1 (code.trans stage.symm)), ?_⟩
    rw [UInt32.toNat_inj.1 (major.trans sameMajor.symm), UInt32.toNat_inj.1 (minor.trans sameMinor.symm)]
    rfl

theorem exists_ofToken {token : UInt32} (known : token.toNat / 65536 ≤ 5) :
    ∃ v, ofToken token = .ok v := by
  obtain ⟨stage, code⟩ := Stage.exists_code (toNat_shiftRight_16 token ▸ known)
  exact ⟨_, bind_eq_ok.2 ⟨stage, Stage.decode_eq_ok.2 code, rfl⟩⟩

theorem ofToken_of_unknown {token : UInt32} (unknown : 5 < token.toNat / 65536) :
    ofToken token = .error (.malformed (.unknownStage (token >>> 16))) := by
  unfold ofToken
  rw [Stage.decode_of_unknown (toNat_shiftRight_16 token ▸ unknown)]
  rfl

theorem ofToken_token_iff {v : Version} : ofToken v.token = .ok v ↔ v.major < 16 ∧ v.minor < 16 := by
  have code := v.stage.code_le
  have major : v.major < 16 ↔ v.major.toNat < 16 := UInt32.lt_iff_toNat_lt
  have minor : v.minor < 16 ↔ v.minor.toNat < 16 := UInt32.lt_iff_toNat_lt
  rw [ofToken_eq_ok, toNat_token, major, minor]
  omega

/-- A version keeps all of its token but the second byte. -/
theorem token_of_ofToken {token : UInt32} {v : Version} (read : ofToken token = .ok v) :
    v.token = token &&& 0xffff00ff := by
  obtain ⟨stage, known, same⟩ := bind_eq_ok.1 read
  obtain rfl := Except.ok.inj same
  unfold Version.token
  rw [Stage.decode_eq_ok.1 known, ← UInt32.toBitVec_inj]
  refine BitVec.eq_of_getLsbD_eq fun i inside => ?_
  interval_cases i <;> simp

end Version

/-! Headers. -/

namespace ProgramHeader
variable {bytes bytes' : List UInt8} {h : ProgramHeader}

structure Acceptable (bytes : List UInt8) : Prop where
  complete : 8 ≤ bytes.length
  known : wordAt bytes 0 / 0x10000 ≤ 5
  whole : 2 ≤ wordAt bytes 1
  available : 4 * wordAt bytes 1 ≤ bytes.length

/-- The first check that a program fails. -/
inductive Fails (bytes : List UInt8) : Defect → Prop where
  | truncated (short : bytes.length < 8) : Fails bytes (.truncated bytes.length)
  | unknownStage {code : UInt32} (complete : 8 ≤ bytes.length)
      (read : code.toNat = wordAt bytes 0 / 0x10000) (unknown : 5 < wordAt bytes 0 / 0x10000) :
      Fails bytes (.unknownStage code)
  | lengthBelowHeader {length : UInt32} (complete : 8 ≤ bytes.length)
      (known : wordAt bytes 0 / 0x10000 ≤ 5) (read : length.toNat = wordAt bytes 1)
      (short : wordAt bytes 1 < 2) : Fails bytes (.lengthBelowHeader length)
  | lengthBeyondInput {length : UInt32} (complete : 8 ≤ bytes.length)
      (known : wordAt bytes 0 / 0x10000 ≤ 5) (read : length.toNat = wordAt bytes 1)
      (whole : 2 ≤ wordAt bytes 1) (beyond : bytes.length < 4 * wordAt bytes 1) :
      Fails bytes (.lengthBeyondInput length bytes.length)

structure Begins (bytes : List UInt8) (h : ProgramHeader) : Prop where
  stage : h.version.stage.code.toNat = wordAt bytes 0 / 0x10000
  major : h.version.major.toNat = wordAt bytes 0 / 0x10 % 0x10
  minor : h.version.minor.toNat = wordAt bytes 0 % 0x10
  length : h.length.toNat = wordAt bytes 1

def encode (h : ProgramHeader) : List UInt8 := wordBytes h.version.token ++ wordBytes h.length

theorem Begins.eq {other : ProgramHeader} (begins : Begins bytes h) (begins' : Begins bytes other) :
    h = other := by
  obtain ⟨⟨stage, major, minor⟩, length⟩ := h
  obtain ⟨⟨stage', major', minor'⟩, length'⟩ := other
  obtain rfl := Stage.code_injective (UInt32.toNat_inj.1 (begins.stage.trans begins'.stage.symm))
  obtain rfl := UInt32.toNat_inj.1 (begins.major.trans begins'.major.symm)
  obtain rfl := UInt32.toNat_inj.1 (begins.minor.trans begins'.minor.symm)
  obtain rfl := UInt32.toNat_inj.1 (begins.length.trans begins'.length.symm)
  rfl

theorem words?_of_length (complete : 8 ≤ bytes.length) : ∃ token length,
    words? bytes = some (token, length) ∧ token.toNat = wordAt bytes 0 ∧
      length.toNat = wordAt bytes 1 := by
  have rest : 4 ≤ (bytes.drop 4).length := by
    rw [List.length_drop]
    omega
  obtain ⟨token, first, tokenIs⟩ := takeWord?_of_length (Nat.le_trans (by decide) complete)
  obtain ⟨length, second, lengthIs⟩ := takeWord?_of_length rest
  rw [wordAt_drop] at lengthIs
  exact ⟨token, length, by simp [words?, first, second], tokenIs, lengthIs⟩

theorem words?_of_short (short : bytes.length < 8) : words? bytes = none := by
  unfold words?
  by_cases enough : 4 ≤ bytes.length
  · have rest : (bytes.drop 4).length < 4 := by
      rw [List.length_drop]
      omega
    obtain ⟨token, first, -⟩ := takeWord?_of_length enough
    simp [first, takeWord?_of_short rest]
  · rw [takeWord?_of_short (Nat.lt_of_not_le enough)]
    rfl

theorem decode_cases (bytes : List UInt8) :
    (Acceptable bytes ∧ ∃ h, decode bytes = .ok h ∧ Begins bytes h) ∨
      ∃ d, decode bytes = .error (.malformed d) ∧ Fails bytes d := by
  by_cases complete : 8 ≤ bytes.length
  case neg =>
    have short := Nat.lt_of_not_le complete
    exact .inr ⟨_, by rw [decode, words?_of_short short], .truncated short⟩
  obtain ⟨token, length, read, tokenIs, lengthIs⟩ := words?_of_length complete
  by_cases known : wordAt bytes 0 / 0x10000 ≤ 5
  case neg =>
    have unknown := Nat.lt_of_not_le known
    have refused := Version.ofToken_of_unknown (tokenIs ▸ unknown)
    refine .inr ⟨_, ?_, .unknownStage complete (tokenIs ▸ toNat_shiftRight_16 token) unknown⟩
    rw [decode, read]
    exact congrArg (· >>= _) refused
  obtain ⟨v, version⟩ := Version.exists_ofToken (tokenIs ▸ known)
  have opened : decode bytes =
      if length < 2 then .error (.malformed (.lengthBelowHeader length))
      else if bytes.length < 4 * length.toNat then
        .error (.malformed (.lengthBeyondInput length bytes.length))
      else .ok ⟨v, length⟩ := by
    rw [decode, read]
    exact congrArg (· >>= _) version
  have below : length < 2 ↔ wordAt bytes 1 < 2 := lengthIs ▸ UInt32.lt_iff_toNat_lt
  by_cases whole : 2 ≤ wordAt bytes 1
  case neg =>
    have short := Nat.lt_of_not_le whole
    exact .inr ⟨_, opened.trans (if_pos (below.2 short)),
      .lengthBelowHeader complete known lengthIs short⟩
  rw [if_neg fun short => Nat.not_lt.2 whole (below.1 short), lengthIs] at opened
  by_cases available : 4 * wordAt bytes 1 ≤ bytes.length
  case neg =>
    have beyond := Nat.lt_of_not_le available
    exact .inr ⟨_, opened.trans (if_pos beyond),
      .lengthBeyondInput complete known lengthIs whole beyond⟩
  obtain ⟨stage, major, minor⟩ := Version.ofToken_eq_ok.1 version
  rw [tokenIs] at stage major minor
  exact .inl ⟨⟨complete, known, whole, available⟩, _,
    opened.trans (if_neg (Nat.not_lt.2 available)), stage, major, minor, lengthIs⟩

theorem Fails.not_acceptable {d : Defect} (fails : Fails bytes d) : ¬Acceptable bytes := by
  rintro ⟨complete, known, whole, available⟩
  cases fails <;> omega

theorem Fails.eq {d other : Defect} (fails : Fails bytes d) (fails' : Fails bytes other) :
    d = other := by
  have word : ∀ {a b : UInt32} {n : Nat}, a.toNat = n → b.toNat = n → a = b :=
    fun one two => UInt32.toNat_inj.1 (one.trans two.symm)
  cases fails with
  | truncated short =>
    cases fails' with
    | truncated _ => rfl
    | _ => omega
  | unknownStage complete read unknown =>
    cases fails' with
    | unknownStage _ read' _ => rw [word read read']
    | _ => omega
  | lengthBelowHeader complete known read short =>
    cases fails' with
    | lengthBelowHeader _ _ read' _ => rw [word read read']
    | _ => omega
  | lengthBeyondInput complete known read whole beyond =>
    cases fails' with
    | lengthBeyondInput _ _ read' _ _ => rw [word read read']
    | _ => omega

theorem decode_eq_ok : decode bytes = .ok h ↔ Acceptable bytes ∧ Begins bytes h := by
  rcases decode_cases bytes with ⟨acceptable, found, read, begins⟩ | ⟨d, refused, fails⟩
  · rw [read, Except.ok.injEq]
    constructor
    · rintro rfl
      exact ⟨acceptable, begins⟩
    · rintro ⟨-, begins'⟩
      exact begins.eq begins'
  · rw [refused]
    constructor
    · intro clash
      cases clash
    · rintro ⟨acceptable, -⟩
      exact absurd acceptable fails.not_acceptable

theorem decode_eq_error {e : ProgramError} :
    decode bytes = .error e ↔ ∃ d, Fails bytes d ∧ e = .malformed d := by
  rcases decode_cases bytes with ⟨acceptable, found, read, -⟩ | ⟨d, refused, fails⟩
  · rw [read]
    constructor
    · intro clash
      cases clash
    · rintro ⟨d, fails, -⟩
      exact absurd acceptable fails.not_acceptable
  · rw [refused, Except.error.injEq]
    constructor
    · rintro rfl
      exact ⟨d, fails, rfl⟩
    · rintro ⟨other, fails', rfl⟩
      rw [fails.eq fails']

theorem decode_congr (read : decode bytes = .ok h)
    (same : ∀ k < 8, k ≠ 1 → bytes'[k]? = bytes[k]?)
    (available : 4 * h.length.toNat ≤ bytes'.length) : decode bytes' = .ok h := by
  obtain ⟨acceptable, begins⟩ := decode_eq_ok.1 read
  have byte : ∀ k < 8, k ≠ 1 → (bytes'.getD k 0).toNat = (bytes.getD k 0).toNat := by
    intro k inside other
    rw [List.getD_eq_getElem?_getD, List.getD_eq_getElem?_getD, same k inside other]
  have length : wordAt bytes' 1 = wordAt bytes 1 := by
    unfold wordAt
    rw [byte _ (by decide) (by decide), byte _ (by decide) (by decide),
      byte _ (by decide) (by decide), byte _ (by decide) (by decide)]
  -- The second byte is the only one that may differ, and none of the fields of the token reaches it.
  have second := (bytes.getD 1 0).toNat_lt
  have second' := (bytes'.getD 1 0).toNat_lt
  have first := byte 0 (by decide) (by decide)
  have third := byte 2 (by decide) (by decide)
  have fourth := byte 3 (by decide) (by decide)
  have low := (bytes.getD 0 0).toNat_lt
  have stage : wordAt bytes' 0 / 0x10000 = wordAt bytes 0 / 0x10000 := by
    rw [wordAt_zero, wordAt_zero]
    omega
  have numbers : wordAt bytes' 0 % 0x100 = wordAt bytes 0 % 0x100 := by
    rw [wordAt_zero, wordAt_zero]
    omega
  rw [begins.length] at available
  refine decode_eq_ok.2 ⟨⟨?_, ?_, ?_, ?_⟩, ⟨?_, ?_, ?_, ?_⟩⟩
  · have := acceptable.whole
    omega
  · exact stage ▸ acceptable.known
  · exact length ▸ acceptable.whole
  · rwa [length]
  · exact begins.stage.trans stage.symm
  · rw [begins.major]
    omega
  · rw [begins.minor]
    omega
  · exact begins.length.trans length.symm

theorem decode_append (read : decode bytes = .ok h) (more : List UInt8) :
    decode (bytes ++ more) = .ok h := by
  obtain ⟨acceptable, begins⟩ := decode_eq_ok.1 read
  have complete := acceptable.complete
  refine decode_congr read ?_ ?_
  · intro k inside _
    exact List.getElem?_append_left (by omega)
  · rw [begins.length, List.length_append]
    exact Nat.le_trans acceptable.available (Nat.le_add_right _ _)

theorem decode_encode {payload : List UInt8} (major : h.version.major < 16)
    (minor : h.version.minor < 16) (whole : 2 ≤ h.length)
    (enough : 4 * (h.length.toNat - 2) ≤ payload.length) : decode (h.encode ++ payload) = .ok h := by
  have token : wordAt (h.encode ++ payload) 0 = h.version.token.toNat := by
    rw [encode, List.append_assoc]
    exact wordAt_wordBytes _ _
  have length : wordAt (h.encode ++ payload) 1 = h.length.toNat := by
    rw [← wordAt_drop]
    exact wordAt_wordBytes _ _
  have size : (h.encode ++ payload).length = 8 + payload.length := by
    rw [List.length_append]
    rfl
  have atLeast : 2 ≤ h.length.toNat := UInt32.le_iff_toNat_le.1 whole
  obtain ⟨stage, major, minor⟩ :=
    Version.ofToken_eq_ok.1 (Version.ofToken_token_iff.2 ⟨major, minor⟩)
  rw [← token] at stage major minor
  refine decode_eq_ok.2 ⟨⟨?_, ?_, ?_, ?_⟩, stage, major, minor, length.symm⟩
  · omega
  · exact stage ▸ h.version.stage.code_le
  · omega
  · omega

/-- A header is read exactly from the bytes that pass the checks, and says what its two words say;
otherwise the error names the first check that fails. So neither the second byte nor anything behind
the header plays a part, what was written is read back, versions and tokens determine each other up
to what a token has no room for, and of the programs read those for the vertex stage can be emitted. -/
theorem decode_accepts_grammar (bytes : List UInt8) :
    ((∃ h, decode bytes = .ok h) ↔ Acceptable bytes) ∧
    (∀ h, decode bytes = .ok h → Begins bytes h) ∧
    (∀ e, decode bytes = .error e ↔ ∃ d, Fails bytes d ∧ e = .malformed d) ∧
    4 * wordAt bytes 1 < UInt64.size ∧
    (∀ h bytes', decode bytes = .ok h → (∀ k < 8, k ≠ 1 → bytes'[k]? = bytes[k]?) →
      4 * h.length.toNat ≤ bytes'.length → decode bytes' = .ok h) ∧
    (∀ h more, decode bytes = .ok h → decode (bytes ++ more) = .ok h) ∧
    (∀ h : ProgramHeader, h.version.major < 16 → h.version.minor < 16 → 2 ≤ h.length →
      4 * (h.length.toNat - 2) ≤ bytes.length → decode (h.encode ++ bytes) = .ok h) ∧
    (∀ v : Version, Version.ofToken v.token = .ok v ↔ v.major < 16 ∧ v.minor < 16) ∧
    (∀ token v, Version.ofToken token = .ok v → v.token = token &&& 0xffff00ff) ∧
    (∀ h, decode bytes = .ok h → VertexEmitter.forStage h.version.stage =
      if wordAt bytes 0 / 0x10000 = 1 then .ok VertexEmitter.start
      else .error (.unsupportedStage h.version.stage)) := by
  refine ⟨?_, ?_, ?_, ?_, ?_, ?_, ?_, ?_, ?_, ?_⟩
  · rcases decode_cases bytes with ⟨acceptable, h, read, -⟩ | ⟨d, refused, fails⟩
    · exact ⟨fun _ => acceptable, fun _ => ⟨h, read⟩⟩
    · exact ⟨fun ⟨h, read⟩ => (decode_eq_ok.1 read).1, fun acceptable =>
        absurd acceptable fails.not_acceptable⟩
  · exact fun h read => (decode_eq_ok.1 read).2
  · exact fun e => decode_eq_error
  · have := wordAt_lt bytes 1
    simp only [UInt64.size]
    omega
  · exact fun h bytes' => decode_congr
  · exact fun h more read => decode_append read more
  · exact fun h => decode_encode
  · exact fun v => Version.ofToken_token_iff
  · exact fun token v => Version.token_of_ofToken
  · intro h read
    rw [← (decode_eq_ok.1 read).2.stage]
    cases h.version.stage <;> rfl

def vertexProgram : List UInt8 := [0x50, 0xab, 1, 0, 3, 0, 0, 0, 7, 7, 7, 7]

theorem vertexProgram_read :
    decode vertexProgram = .ok ⟨⟨.vertex, 5, 0⟩, 3⟩ ∧
      decode (vertexProgram.set 1 0 ++ [1]) = .ok ⟨⟨.vertex, 5, 0⟩, 3⟩ ∧
      decode (encode ⟨⟨.hull, 5, 15⟩, 5⟩ ++ vertexProgram) = .ok ⟨⟨.hull, 5, 15⟩, 5⟩ ∧
      Version.token ⟨.vertex, 5, 0⟩ = 0x0001ab50 &&& 0xffff00ff := by
  have read : decode vertexProgram = .ok ⟨⟨.vertex, 5, 0⟩, 3⟩ := by decide
  obtain ⟨-, -, -, -, congr, -, written, -, kept, -⟩ := decode_accepts_grammar vertexProgram
  exact ⟨read, congr _ (vertexProgram.set 1 0 ++ [1]) read (by decide) (by decide),
    written _ (by decide) (by decide) (by decide) (by decide), kept _ _ (by decide)⟩

end ProgramHeader
end Shader
