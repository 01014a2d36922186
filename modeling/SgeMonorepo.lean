import SgeMonorepo.P4Lib.Capability
import SgeMonorepo.P4Lib.ClientCb
import SgeMonorepo.P4Lib.Pool
import SgeMonorepo.P4Lib.P4runcb
import SgeMonorepo.P4Lib.Steps
import SgeMonorepo.P4Lib.Ownership
import SgeMonorepo.P4Lib.Sessions
import SgeMonorepo.P4Lib.Trace
import SgeMonorepo.P4Lib.Arguments
import SgeMonorepo.P4Lib.Retry
import SgeMonorepo.P4Lib.Mutex
import SgeMonorepo.ShaderPacker.Name
import SgeMonorepo.ShaderPacker.Annotations
import SgeMonorepo.ShaderPacker.Regex
import SgeMonorepo.ShaderPacker.Pack
import SgeMonorepo.ShaderPacker.Main
