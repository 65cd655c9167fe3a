import Intake.Text.Utf8

/-!
# Endpoints

What a request can ask for, the method each endpoint answers to, and the reasons for which a
request whose head is complete is turned away.
-/

namespace Intake.Request

inductive Method where
  | get
  | post
deriving DecidableEq

namespace Method

def token : Method → String
  | get => "GET"
  | post => "POST"

def ofToken? (bs : Bytes) : Option Method :=
  [get, post].find? fun method => Utf8.ofString method.token == bs

/-- The name of a method in reports, or of its absence. -/
def label : Option Method → String
  | some get => "Get"
  | some post => "Post"
  | none => "Unknown"

end Method

inductive Endpoint where
  | filter
  | group
  | recommend
  | suggest
  | create
  | update
  | likes
deriving DecidableEq

namespace Endpoint

def all : List Endpoint := [filter, group, recommend, suggest, create, update, likes]

def method : Endpoint → Method
  | filter | group | recommend | suggest => .get
  | create | update | likes => .post

def hasBody (e : Endpoint) : Bool := e.method == .post

/-- The name of an endpoint in reports, or of its absence. -/
def label : Option Endpoint → String
  | some filter => "Filter"
  | some group => "Group"
  | some recommend => "Recommend"
  | some suggest => "Suggest"
  | some create => "AccountsNew"
  | some update => "AccountsUpdate"
  | some likes => "AccountsLikes"
  | none => "Invalid"

end Endpoint

/-- Why a request is turned away. -/
inductive Rejection where
  | malformedRequestLine
  | unsupportedProtocol
  | unknownEndpoint
  | methodNotAllowed
  | malformedQueryId
  | malformedParameter
deriving DecidableEq

def Rejection.message : Rejection → String
  | malformedRequestLine => "malformed request line"
  | unsupportedProtocol => "unsupported protocol"
  | unknownEndpoint => "unknown endpoint"
  | methodNotAllowed => "method not allowed"
  | malformedQueryId => "malformed query_id"
  | malformedParameter => "malformed parameter value"

end Intake.Request
