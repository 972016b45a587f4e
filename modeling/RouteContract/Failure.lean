import RouteContract.File.System
import RouteContract.Literal.Reader

/-!
# Failures

The causes for which a run ends without a document, and their wording.
-/

namespace RouteContract

/-- Why a configuration file cannot be used. -/
inductive ConfigFault where
  | file (error : FileError)
  | literal (error : Literal.Error)
  | malformed (reason : String)
deriving DecidableEq, Repr

/-- The wording of a fault of a configuration file. -/
def ConfigFault.message : ConfigFault → String
  | .file e => e.message
  | .literal e => e.message
  | .malformed reason => reason

/-- Why a run ends without a document. -/
inductive Failure where
  | io (message : String)
  | entryNotFound (path : String)
  | source (file message : String)
  | config (file : String) (fault : ConfigFault)
  | invalidArgument (message : String)
  | serialization (message : String)
deriving DecidableEq, Repr

namespace Failure

/-- The wording of a failure. -/
def message : Failure → String
  | .io message => "IO 错误: " ++ message
  | .entryNotFound path => "入口文件不存在: " ++ path
  | .source file message => "解析错误 " ++ file ++ ": " ++ message
  | .config file fault => "配置错误 " ++ file ++ ": " ++ fault.message
  | .invalidArgument message => "无效参数: " ++ message
  | .serialization message => "序列化错误: " ++ message

/-- Whether a failure only passes on another error. -/
def hasSource : Failure → Bool
  | .io _ => true
  | _ => false

end Failure

end RouteContract
