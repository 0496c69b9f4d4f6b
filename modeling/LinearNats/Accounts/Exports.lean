import LinearNats.Sublist.Matchers

/-! Whether another account may import from an account. -/
namespace LinearNats.Accounts
open Server Sublists List

/-! ### Exports -/

structure ExportAuth where
  tokenReq : Bool
  accountPos : Nat
  approved : List Bytes
  actsRevoked : List (Bytes × Int)
  deriving DecidableEq

/-- A map from subjects to exports; an export that is missing is public. -/
structure ExportMap where
  entries : List (Bytes × Option ExportAuth)
  keys : (entries.map Prod.fst).Nodup

def ExportMap.set (exports : ExportMap) (subject : Bytes) (ea : Option ExportAuth) : ExportMap :=
  ⟨Table.set exports.entries subject ea, Table.keys_set exports.keys subject ea⟩

def ExportMap.empty : ExportMap := ⟨[], nodup_nil⟩

def ExportAuth.new : ExportAuth := ⟨false, 0, [], []⟩

/-- None for `ErrInvalidSubject`. -/
def setExportAuth (ea : ExportAuth) (subject : Bytes) (accounts : Option (List Bytes))
    (accountPos : Nat) : Option ExportAuth :=
  if accountPos > 0 ∧ (tokens subject)[accountPos - 1]? ≠ some [pwc] then none
  else
    let ea := { ea with accountPos := accountPos }
    match accounts with
    | none => some ea
    | some [] => some { ea with tokenReq := true }
    | some names => some { ea with approved := ea.approved ++ names }

structure ExportingAccount where
  name : Bytes
  signingKeys : List Bytes
  streams : ExportMap
  services : ExportMap

def ExportingAccount.addStreamExportWithAccountPos (a : ExportingAccount) (subject : Bytes)
    (accounts : Option (List Bytes)) (accountPos : Nat) : Option ExportingAccount :=
  let ea := (Table.get a.streams.entries subject).join
  if accounts.isSome ∨ accountPos > 0 then
    (setExportAuth (ea.getD .new) subject accounts accountPos).map
      (fun ea => { a with streams := a.streams.set subject (some ea) })
  else some { a with streams := a.streams.set subject ea }

def ExportingAccount.addServiceExportWithAccountPos (a : ExportingAccount) (subject : Bytes)
    (accounts : Option (List Bytes)) (accountPos : Nat) : Option ExportingAccount :=
  let se := (Table.get a.services.entries subject).join.getD .new
  if accounts.isSome ∨ accountPos > 0 then
    (setExportAuth se subject accounts accountPos).map
      (fun se => { a with services := a.services.set subject (some se) })
  else some { a with services := a.services.set subject (some se) }

/-! ### Authorization -/

structure Activation where
  issuerAccount : Bytes
  issuer : Bytes
  subject : Bytes
  issuedAt : Int
  expires : Int

/-- What the token library says about claims: the token of an import, whether its validation blocks,
the activation in a token, and whether its validation blocks. -/
structure TokenLibrary (Claim : Type) where
  token : Claim → Bytes
  importBlocked : Bytes → Claim → Bool
  decodeActivationClaims : Bytes → Option Activation
  activationBlocked : Activation → Bool

def jwtAll : Bytes := [42]

def isRevoked (revocations : List (Bytes × Int)) (subject : Bytes) (issuedAt : Int) : Bool :=
  if revocations = [] then false
  else
    let spared (key : Bytes) : Bool := (Table.get revocations key).all (fun t => t < issuedAt)
    !(spared subject && spared jwtAll)

section
variable {Claim : Type} (jwt : TokenLibrary Claim) (a : ExportingAccount) (now : Int)
  (account : Bytes) (imClaim : Option Claim)

def isIssuerClaimTrusted (act : Activation) : Bool :=
  if act.issuerAccount = [] then true
  else if a.name ≠ act.issuerAccount then false
  else act.issuer ∈ a.signingKeys

def checkActivation (ea : ExportAuth) : Bool :=
  match imClaim with
  | none => false
  | some claim =>
    if jwt.token claim = [] then false
    else if jwt.importBlocked account claim then false
    else
      match jwt.decodeActivationClaims (jwt.token claim) with
      | none => false
      | some act =>
        if !isIssuerClaimTrusted a act then false
        else if jwt.activationBlocked act then false
        else if act.expires ≠ 0 ∧ act.expires ≤ now then false
        else !isRevoked ea.actsRevoked act.subject act.issuedAt

/-- `toks` are the tokens of the import's subject, none for an exact match. -/
def checkAuth (ea : Option ExportAuth) (toks : List Token) : Bool :=
  match ea with
  | none => true
  | some ea =>
    if ea.approved = [] ∧ ea.tokenReq = false ∧ ea.accountPos = 0 then true
    else if ea.accountPos > 0 then toks[ea.accountPos - 1]? = some account
    else if ea.tokenReq then checkActivation jwt a now account imClaim ea
    else account ∈ ea.approved

/-- An exact match first; if there is none, the first export that covers the subject. -/
def checkExportApproved (exports : ExportMap) (order : Table.Order (Bytes × Option ExportAuth))
    (subject : Bytes) : Bool :=
  match Table.get exports.entries subject with
  | some ea => checkAuth jwt a now account imClaim ea []
  | none =>
    match (order.visit exports.entries).find? (fun e =>
      isSubsetMatchTokenized (tokens subject) (tokens e.1)) with
    | some e => checkAuth jwt a now account imClaim e.2 (tokens subject)
    | none => false

def checkStreamExportApproved : Table.Order (Bytes × Option ExportAuth) → Bytes → Bool :=
  checkExportApproved jwt a now account imClaim a.streams

def checkServiceExportApproved : Table.Order (Bytes × Option ExportAuth) → Bytes → Bool :=
  checkExportApproved jwt a now account imClaim a.services

/-! ### Chance -/

def CoversImport (subject : Bytes) (e : Bytes × Option ExportAuth) : Prop :=
  e.1 = subject ∨ isSubsetMatchTokenized (tokens subject) (tokens e.1) = true

instance (subject : Bytes) (e : Bytes × Option ExportAuth) : Decidable (CoversImport subject e) :=
  inferInstanceAs (Decidable (_ ∨ _))

/-- What an export says to an import; one for the very subject is not asked for a token of it. -/
def answer (subject : Bytes) (e : Bytes × Option ExportAuth) : Bool :=
  checkAuth jwt a now account imClaim e.2 (if e.1 = subject then [] else tokens subject)

/-- The answer is the same in every order, and that of the covering exports if they all say the
same. -/
structure NotByChance (exports : ExportMap) (subject : Bytes)
    (check : Table.Order (Bytes × Option ExportAuth) → Bool) : Prop where
  same : ∀ order order', check order = check order'
  refused : (∀ e ∈ exports.entries, CoversImport subject e →
      answer jwt a now account imClaim subject e = false) → ∀ order, check order = false
  accepted : (∃ e ∈ exports.entries, CoversImport subject e) →
    (∀ e ∈ exports.entries, CoversImport subject e →
      answer jwt a now account imClaim subject e = true) → ∀ order, check order = true

def ExportsAgree (exports : ExportMap) (subject : Bytes) : Prop :=
  (∃ e ∈ exports.entries, e.1 = subject) ∨
    ∀ e ∈ exports.entries, ∀ e' ∈ exports.entries, CoversImport subject e → CoversImport subject e' →
      answer jwt a now account imClaim subject e = answer jwt a now account imClaim subject e'

variable {jwt a now account imClaim} {exports : ExportMap} {subject : Bytes}

def startingWith (e : Bytes × Option ExportAuth) : Table.Order (Bytes × Option ExportAuth) where
  visit t := if e ∈ t then e :: t.erase e else t
  perm t := by
    split
    next inside => exact (perm_cons_erase inside).symm
    · exact .refl t

theorem checkExportApproved_exact {e : Bytes × Option ExportAuth} (inside : e ∈ exports.entries)
    (same : e.1 = subject) (order : Table.Order (Bytes × Option ExportAuth)) :
    checkExportApproved jwt a now account imClaim exports order subject =
      answer jwt a now account imClaim subject e := by
  have found : Table.get exports.entries subject = some e.2 := by
    subst same
    exact Table.get_of_mem exports.keys inside
  rw [checkExportApproved, found, answer, if_pos same]

section
variable (inexact : ∀ e ∈ exports.entries, e.1 ≠ subject)
include inexact

theorem checkExportApproved_inexact (order : Table.Order (Bytes × Option ExportAuth)) :
    checkExportApproved jwt a now account imClaim exports order subject =
      ((order.visit exports.entries).find? (fun e => CoversImport subject e)).any
        (answer jwt a now account imClaim subject) := by
  have missing : Table.get exports.entries subject = none := by
    rw [Table.get_eq_none_iff]
    intro inside
    obtain ⟨e, member, same⟩ := mem_map.mp inside
    exact inexact e member same
  have visited : ∀ e ∈ order.visit exports.entries, e.1 ≠ subject :=
    fun e member => inexact e ((order.perm _).mem_iff.mp member)
  have same : (order.visit exports.entries).find? (fun e =>
        isSubsetMatchTokenized (tokens subject) (tokens e.1)) =
      (order.visit exports.entries).find? (fun e => CoversImport subject e) := by
    refine find?_congr (fun e member => ?_)
    simp [CoversImport, visited e member]
  rw [checkExportApproved, missing, same]
  cases found : (order.visit exports.entries).find? (fun e => CoversImport subject e) with
  | none => rfl
  | some e =>
    simp only [Option.any_some]
    rw [answer, if_neg (visited e (mem_of_find?_eq_some found))]

theorem checkExportApproved_startingWith {e : Bytes × Option ExportAuth}
    (inside : e ∈ exports.entries) (covers : CoversImport subject e) :
    checkExportApproved jwt a now account imClaim exports (startingWith e) subject =
      answer jwt a now account imClaim subject e := by
  rw [checkExportApproved_inexact inexact, startingWith]
  simp [inside, covers]

theorem checkExportApproved_covered (covered : ∃ e ∈ exports.entries, CoversImport subject e)
    (order : Table.Order (Bytes × Option ExportAuth)) :
    ∃ e ∈ exports.entries, CoversImport subject e ∧
      checkExportApproved jwt a now account imClaim exports order subject =
        answer jwt a now account imClaim subject e := by
  rw [checkExportApproved_inexact inexact]
  cases found : (order.visit exports.entries).find? (fun e => CoversImport subject e) with
  | none =>
    obtain ⟨e, inside, covers⟩ := covered
    have none_ := find?_eq_none.mp found e ((order.perm _).mem_iff.mpr inside)
    exact absurd covers (by simpa using none_)
  | some e =>
    have inside := mem_of_find?_eq_some found
    exact ⟨e, (order.perm _).mem_iff.mp inside, by simpa using find?_some found, rfl⟩

theorem checkExportApproved_uncovered (uncovered : ¬ ∃ e ∈ exports.entries, CoversImport subject e)
    (order : Table.Order (Bytes × Option ExportAuth)) :
    checkExportApproved jwt a now account imClaim exports order subject = false := by
  have none_ : (order.visit exports.entries).find? (fun e => CoversImport subject e) = none := by
    rw [find?_eq_none]
    intro e inside covers
    exact uncovered ⟨e, (order.perm _).mem_iff.mp inside, by simpa using covers⟩
  rw [checkExportApproved_inexact inexact, none_]
  rfl

end

/-- The exact condition, for the exports of either kind. -/
theorem notByChance_iff : NotByChance jwt a now account imClaim exports subject
      (checkExportApproved jwt a now account imClaim exports · subject) ↔
    ExportsAgree jwt a now account imClaim exports subject := by
  by_cases exact_ : ∃ e ∈ exports.entries, e.1 = subject
  · obtain ⟨e, inside, same⟩ := exact_
    have decided (order : Table.Order (Bytes × Option ExportAuth)) :
        checkExportApproved jwt a now account imClaim exports order subject =
          answer jwt a now account imClaim subject e := checkExportApproved_exact inside same order
    refine iff_of_true ⟨?_, ?_, ?_⟩ (.inl ⟨e, inside, same⟩)
    · intro order order'
      rw [decided, decided]
    · intro all order
      rw [decided]
      exact all e inside (.inl same)
    · intro _ all order
      rw [decided]
      exact all e inside (.inl same)
  have inexact : ∀ e ∈ exports.entries, e.1 ≠ subject :=
    fun e inside same => exact_ ⟨e, inside, same⟩
  constructor
  · intro free
    refine .inr ?_
    intro e inside e' inside' covers covers'
    rw [← checkExportApproved_startingWith inexact inside covers,
      ← checkExportApproved_startingWith inexact inside' covers']
    exact free.same _ _
  · intro agree
    have agree := agree.resolve_left exact_
    refine ⟨?_, ?_, ?_⟩
    · intro order order'
      by_cases covered : ∃ e ∈ exports.entries, CoversImport subject e
      · obtain ⟨e, inside, covers, decided⟩ := checkExportApproved_covered inexact covered order
        obtain ⟨e', inside', covers', decided'⟩ :=
          checkExportApproved_covered inexact covered order'
        rw [decided, decided']
        exact agree e inside e' inside' covers covers'
      · rw [checkExportApproved_uncovered inexact covered,
          checkExportApproved_uncovered inexact covered]
    · intro all order
      by_cases covered : ∃ e ∈ exports.entries, CoversImport subject e
      · obtain ⟨e, inside, covers, decided⟩ := checkExportApproved_covered inexact covered order
        rw [decided]
        exact all e inside covers
      · exact checkExportApproved_uncovered inexact covered order
    · intro covered all order
      obtain ⟨e, inside, covers, decided⟩ := checkExportApproved_covered inexact covered order
      rw [decided]
      exact all e inside covers

end

theorem import_authorization_iff {Claim : Type} (jwt : TokenLibrary Claim) (a : ExportingAccount)
    (now : Int) (account : Bytes) (imClaim : Option Claim) (subject : Bytes) :
    (NotByChance jwt a now account imClaim a.streams subject
        (checkStreamExportApproved jwt a now account imClaim · subject) ∧
      NotByChance jwt a now account imClaim a.services subject
        (checkServiceExportApproved jwt a now account imClaim · subject)) ↔
      ExportsAgree jwt a now account imClaim a.streams subject ∧
        ExportsAgree jwt a now account imClaim a.services subject :=
  and_congr notByChance_iff notByChance_iff

/-- With a public export of `foo.*` and one of `foo.>` for `B` only, the import of `foo.a` by `C` is
approved or not, by the order; for streams and for services. -/
theorem approved_by_chance :
    let jwt : TokenLibrary Unit := ⟨fun _ => [], fun _ _ => true, fun _ => none, fun _ => true⟩
    let a : ExportingAccount := ⟨[65], [], .empty, .empty⟩
    let first : Table.Order (Bytes × Option ExportAuth) := ⟨id, .refl⟩
    let last : Table.Order (Bytes × Option ExportAuth) := ⟨List.reverse, reverse_perm⟩
    let streaming := (a.addStreamExportWithAccountPos [102, 111, 111, 46, 42] none 0).bind
      (·.addStreamExportWithAccountPos [102, 111, 111, 46, 62] (some [[66]]) 0)
    let serving := (a.addServiceExportWithAccountPos [102, 111, 111, 46, 42] none 0).bind
      (·.addServiceExportWithAccountPos [102, 111, 111, 46, 62] (some [[66]]) 0)
    let stream (order) := streaming.map (fun a =>
      checkStreamExportApproved jwt a 0 [67] none order [102, 111, 111, 46, 97])
    let service (order) := serving.map (fun a =>
      checkServiceExportApproved jwt a 0 [67] none order [102, 111, 111, 46, 97])
    (stream first = some false ∧ stream last = some true) ∧
      service first = some false ∧ service last = some true := by
  decide +kernel

end LinearNats.Accounts
