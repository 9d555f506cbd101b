import Dingir.Spec.Types

/-!
# Who is calling

`authentication.rs`: the interceptor of the gRPC server takes the user and the roles of a call from
its token. `decode` of the library `jsonwebtoken`, with the public key of the settings, is a
parameter; it reads a clock as well, since it checks the dates of a token.

The clock counts whole seconds since 1970 and is past the first hour, so that
`get_current_unix_timestamp() - ONE_HOUR_IN_SECS` does not underflow. It is read once for a call.
The settings, which the source reads from the files again for every token, are those of the server.
-/

namespace Dingir

def ONE_HOUR_IN_SECS : ℕ := 60 * 60

/-- The claims of a token: when it expires and was issued, for whom, and with which roles. -/
structure Claims where
  exp : ℕ
  iat : ℕ
  sub : Uuid
  /-- the `roles` of `realm_access` -/
  realmAccess : Option (List String)

namespace Claims

def validateIssueDate (claims : Claims) (now : ℕ) : Bool :=
  !decide (claims.iat < now - ONE_HOUR_IN_SECS)

def validateExpiryDate (claims : Claims) (now : ℕ) : Bool :=
  !decide (now + ONE_HOUR_IN_SECS < claims.exp)

def ensureTimelyBoundaries (claims : Claims) (now : ℕ) : Bool :=
  claims.validateIssueDate now && claims.validateExpiryDate now

def hasRole (claims : Claims) (kcRole : String) : Bool :=
  match claims.realmAccess with
  | some roles => roles.any (· = kcRole)
  | none => false

end Claims

structure UserExtension where
  userId : Uuid
  isAdmin : Bool
  isDepositAdmin : Bool
  isWithdrawalAdmin : Bool

/-- The settings of Keycloak, with `decode` under its public key at a reading of the clock: the
claims of a token, or the text of the error. -/
structure Keycloak where
  adminRole : String
  depositAdminRole : String
  withdrawalAdminRole : String
  decode : ℕ → String → Except String Claims

/-- How a call does not get through: a `tonic::Status`, or the end of its task. -/
inductive Rejected
  | unauthenticated (message : String)
  | permissionDenied (message : String)
  | status (status : Status)
  | panic
  deriving DecidableEq

def validateJwt (keycloak : Keycloak) (now : ℕ) (jwt : String) : Except String Claims := do
  let claims ← keycloak.decode now jwt
  -- double check time-based validity of token
  if !claims.ensureTimelyBoundaries now then throw "Token does not fulfill timely boundaries."
  return claims

def getUserExtension (keycloak : Keycloak) (claims : Claims) : UserExtension :=
  { isAdmin := claims.hasRole keycloak.adminRole
    isDepositAdmin := claims.hasRole keycloak.depositAdminRole
    isWithdrawalAdmin := claims.hasRole keycloak.withdrawalAdminRole
    userId := claims.sub }

/-- The `authorization` of a call as `to_str` gives it: a text, or the text of the error. -/
abbrev Authorization := Option (Except String String)

/-- `grpc_interceptor`: the extension of the request, which a call without a token does not get. -/
def grpcInterceptor (keycloak : Keycloak) (now : ℕ) :
    Authorization → Except Rejected (Option UserExtension)
  | none => .ok none
  | some (.error e) => .error (.unauthenticated e)
  | some (.ok token) =>
    match validateJwt keycloak now (token.replace "Bearer " "") with
    | .error e => .error (.unauthenticated e)
    | .ok claims => .ok (some (getUserExtension keycloak claims))

/-! ## What a call needs -/

def credentialsMissing : Rejected := .unauthenticated "Token not found"

def grpcBlockAnonymous (user : Option UserExtension) : Except Rejected Unit :=
  if user.isNone then .error credentialsMissing else .ok ()

/-- A call that needs a role. -/
def grpcBlockWithout (role : UserExtension → Bool) (message : String) :
    Option UserExtension → Except Rejected Unit
  | none => .error credentialsMissing
  | some user => if role user then .ok () else .error (.permissionDenied message)

def grpcBlockNonAdmins : Option UserExtension → Except Rejected Unit :=
  grpcBlockWithout UserExtension.isAdmin "Requires admin role."

def grpcBlockNonDepositAdmins : Option UserExtension → Except Rejected Unit :=
  grpcBlockWithout UserExtension.isDepositAdmin "Requires deposit-admin role."

def grpcBlockNonWithdrawalAdmins : Option UserExtension → Except Rejected Unit :=
  grpcBlockWithout UserExtension.isWithdrawalAdmin "Requires withdrawal-admin role."

end Dingir
